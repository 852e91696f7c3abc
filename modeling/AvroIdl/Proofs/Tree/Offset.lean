import AvroIdl.Proofs.Tree.Place

/-!
# The leaf at an offset

The way down a tree to an offset never leaves the leaf that contains the offset,
`Element.pathThrough_of_mem`, so that `Tree.leafAt?` finds that leaf with all nodes around it:
`Tree.leafAt?_eq`.
-/

namespace AvroIdl

namespace Leaf

/-- Whether an offset is one of a byte of the leaf. -/
def Contains (l : Leaf) (offset : Nat) : Prop := l.start ≤ offset ∧ offset < l.start + l.text.length

end Leaf

namespace Element

/-- A leaf lies within the element that it is below. -/
theorem bounds_of_mem {e : Element} (h : e.All Measured) {start : Nat} {above : List Node}
    {p : Leaf × List Node} (mem : p ∈ e.leafPaths start above) :
    start ≤ p.1.start ∧ p.1.start + p.1.text.length ≤ start + e.width := by
  have located : p.1 ∈ Leaf.located start e.tokens := by
    rw [← leafPaths_eq h start above]
    exact List.mem_map_of_mem mem
  refine ⟨Leaf.start_le_of_mem located, ?_⟩
  obtain ⟨before, after, all, place⟩ := Leaf.split_of_mem located
  rw [width_eq h, text_eq_tokens, all, Token.textOf_append, Token.textOf_cons, place]
  simp only [List.length_append, Leaf.text]
  omega

theorem start_le_of_leafPathsAll {es : List Element} (h : AllOf Measured es) {start : Nat}
    {above : List Node} {p : Leaf × List Node} (mem : p ∈ leafPathsAll start above es) :
    start ≤ p.1.start := by
  have located : p.1 ∈ Leaf.located start (tokensOf es) := by
    rw [← leafPathsAll_eq h start above]
    exact List.mem_map_of_mem mem
  exact Leaf.start_le_of_mem located

/-- Elements that start after the offset are passed by. -/
theorem pathThrough_of_lt {offset start : Nat} (before : offset < start) (above : List Node)
    (es : List Element) : pathThrough offset start above es = above := by
  induction es generalizing start with
  | nil => rw [pathThrough]
  | cons e rest ih =>
    cases e with
    | leaf t =>
      rw [pathThrough]
      exact ih (by omega)
    | node l children =>
      rw [pathThrough, if_neg (by simp only [Bool.and_eq_true, decide_eq_true_eq]; omega)]
      exact ih (by omega)

mutual

/-- The way through an element ends where it is, or at a node with the leaf below it. -/
theorem pathInto_of_mem {e : Element} (h : e.All Measured) {offset start : Nat} {above : List Node}
    {p : Leaf × List Node} (mem : p ∈ e.leafPaths start above) (here : p.1.Contains offset) :
    pathInto offset start above e = above ∨
      ∃ m rest, pathInto offset start above e = m :: rest ∧
        AllOf Measured m.children ∧ p ∈ leafPathsAll m.start (m :: rest) m.children := by
  cases e with
  | leaf t => exact .inl (by rw [pathInto])
  | node l children =>
    rw [pathInto]
    rcases pathThrough_of_mem h.2 mem here with stays | inside
    · exact .inr ⟨⟨start, l, children⟩, above, stays, h.2, mem⟩
    · exact .inr inside

/-- The way among elements ends where it is, or at a node with the leaf below it. -/
theorem pathThrough_of_mem {es : List Element} (h : AllOf Measured es) {offset start : Nat}
    {above : List Node} {p : Leaf × List Node} (mem : p ∈ leafPathsAll start above es)
    (here : p.1.Contains offset) :
    pathThrough offset start above es = above ∨
      ∃ m rest, pathThrough offset start above es = m :: rest ∧
        AllOf Measured m.children ∧ p ∈ leafPathsAll m.start (m :: rest) m.children := by
  cases es with
  | nil => contradiction
  | cons e rest =>
    obtain ⟨low, high⟩ := here
    rcases List.mem_append.mp mem with first | later
    · have bounds := bounds_of_mem h.1 first
      cases e with
      | leaf t =>
        obtain rfl := List.mem_singleton.mp first
        rw [pathThrough]
        exact .inl (pathThrough_of_lt high above rest)
      | node l children =>
        rw [pathThrough, if_pos ?_]
        · exact pathInto_of_mem h.1 first ⟨low, high⟩
        · simp only [width, Bool.and_eq_true, decide_eq_true_eq] at bounds ⊢
          omega
    · have after := start_le_of_leafPathsAll h.2 later
      cases e with
      | leaf t =>
        rw [pathThrough]
        exact pathThrough_of_mem h.2 later ⟨low, high⟩
      | node l children =>
        rw [pathThrough, if_neg ?_]
        · exact pathThrough_of_mem h.2 later ⟨low, high⟩
        · simp only [width, Bool.and_eq_true, decide_eq_true_eq] at after ⊢
          omega

end

/-- Leaves that follow each other, with what is around them. -/
theorem pairwise_leafPathsAll {es : List Element} (h : AllOf Measured es) (start : Nat)
    (above : List Node) :
    (leafPathsAll start above es).Pairwise fun p q => p.1.start + p.1.text.length ≤ q.1.start := by
  rw [← List.pairwise_map (f := Prod.fst)
    (R := fun a b : Leaf => a.start + a.text.length ≤ b.start), leafPathsAll_eq h]
  exact Leaf.pairwise_located start _

end Element

/-- Of leaves that follow each other, only one contains an offset. -/
theorem Leaf.Contains.eq_of_pairwise {ps : List (Leaf × List Node)}
    (ordered : ps.Pairwise fun p q => p.1.start + p.1.text.length ≤ q.1.start)
    {p q : Leaf × List Node} (hp : p ∈ ps) (hq : q ∈ ps) {offset : Nat} (inP : p.1.Contains offset)
    (inQ : q.1.Contains offset) : p = q := by
  unfold Contains at inP inQ
  induction ordered with
  | nil => contradiction
  | cons first _ ih =>
    rcases List.mem_cons.mp hp, List.mem_cons.mp hq with ⟨rfl | later, rfl | later'⟩
    · rfl
    · have := first q later'
      omega
    · have := first p later
      omega
    · exact ih later later'

/-- A leaf is found at each of its bytes, with the nodes around it. -/
theorem Tree.leafAt?_eq {t : Tree} (measured : t.element.All Element.Measured)
    {p : Leaf × List Node} (mem : p ∈ t.leafPaths) {offset : Nat} (here : p.1.Contains offset) :
    t.leafAt? offset = some p := by
  have way : ∃ m rest, t.pathAt offset = m :: rest ∧ Element.AllOf Element.Measured m.children ∧
      p ∈ Element.leafPathsAll m.start (m :: rest) m.children := by
    rcases Element.pathThrough_of_mem measured.2 mem here with stays | inside
    · exact ⟨t.root, [], stays, measured.2, mem⟩
    · exact inside
  obtain ⟨m, rest, path, inside, below⟩ := way
  have contains (q : Leaf × List Node) :
      (q.1.start ≤ offset && offset < q.1.start + q.1.text.length) = true ↔ q.1.Contains offset := by
    rw [Bool.and_eq_true, decide_eq_true_eq, decide_eq_true_eq, Leaf.Contains]
  rw [leafAt?, path]
  dsimp only
  cases found : (Element.leafPathsAll m.start (m :: rest) m.children).find?
      fun q => q.1.start ≤ offset && offset < q.1.start + q.1.text.length with
  | none => exact absurd ((contains p).mpr here) (List.find?_eq_none.mp found p below)
  | some q =>
    have ordered := Element.pairwise_leafPathsAll inside m.start (m :: rest)
    have there := List.find?_some found
    rw [Leaf.Contains.eq_of_pairwise ordered (List.mem_of_find?_eq_some found) below
      ((contains q).mp there) here]

end AvroIdl
