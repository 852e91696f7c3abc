import AvroIdl.Proofs.Tree.Errors
import AvroIdl.Proofs.Tree.Offset

/-!
# The innermost node at an offset

Of two nodes around an offset one is below the other, `Element.nested_of_contains`. The way down to an
offset ends at the parent of the leaf there, `Element.pathThrough_eq`, and no other node around the
offset is below that parent, `Element.mem_leafPaths_of_contains`. So the two queries at an offset agree
about every tree that a document ever has: `Tree.offset_queries`.

A text that is too long for the offsets is one leaf in one error node, and the queries find the two
wherever the node's span reaches.
-/

namespace AvroIdl

/-- Whether an offset is one of a byte of the node. -/
def Node.Contains (n : Node) (offset : Nat) : Prop :=
  n.start ≤ offset ∧ offset < n.start + n.label.width

/-- Every offset in a text is in one of its tokens. -/
theorem Leaf.exists_located {start offset : Nat} {ts : List Token} (low : start ≤ offset)
    (high : offset < start + (Token.textOf ts).length) :
    ∃ l ∈ located start ts, l.Contains offset := by
  induction ts generalizing start with
  | nil =>
    simp [Token.textOf] at high
    omega
  | cons t rest ih =>
    by_cases inside : offset < start + t.text.length
    · exact ⟨⟨start, t⟩, List.mem_cons_self, low, inside⟩
    · rw [Token.textOf_cons, List.length_append] at high
      obtain ⟨l, mem, here⟩ := ih (Nat.not_lt.mp inside) (by omega)
      exact ⟨l, .tail _ mem, here⟩

namespace Element

/-! ## The way down -/

mutual

theorem pathInto_eq {e : Element} (h : e.All Measured) {offset start : Nat} {above : List Node}
    {p : Leaf × List Node} (mem : p ∈ e.leafPaths start above) (here : p.1.Contains offset) :
    pathInto offset start above e = p.2 := by
  cases e with
  | leaf t =>
    obtain rfl := List.mem_singleton.mp mem
    rw [pathInto]
  | node l children =>
    rw [pathInto]
    exact pathThrough_eq h.2 mem here

/-- The way down to an offset ends right above the leaf there. -/
theorem pathThrough_eq {es : List Element} (h : AllOf Measured es) {offset start : Nat}
    {above : List Node} {p : Leaf × List Node} (mem : p ∈ leafPathsAll start above es)
    (here : p.1.Contains offset) : pathThrough offset start above es = p.2 := by
  cases es with
  | nil => contradiction
  | cons e rest =>
    obtain ⟨low, high⟩ := here
    rcases List.mem_append.mp mem with first | later
    · have bounds := bounds_of_mem h.1 first
      cases e with
      | leaf t =>
        obtain rfl := List.mem_singleton.mp first
        rw [pathThrough]
        exact pathThrough_of_lt high above rest
      | node l children =>
        rw [pathThrough, if_pos ?_]
        · exact pathInto_eq h.1 first ⟨low, high⟩
        · simp only [width, Bool.and_eq_true, decide_eq_true_eq] at bounds ⊢
          omega
    · have after := start_le_of_leafPathsAll h.2 later
      cases e with
      | leaf t =>
        rw [pathThrough]
        exact pathThrough_eq h.2 later ⟨low, high⟩
      | node l children =>
        rw [pathThrough, if_neg ?_]
        · exact pathThrough_eq h.2 later ⟨low, high⟩
        · simp only [width, Bool.and_eq_true, decide_eq_true_eq] at after ⊢
          omega

end

/-- Elements that end before the offset are passed by. -/
theorem pathThrough_of_le {offset start : Nat} {es : List Element}
    (after : start + widthOf es ≤ offset) (above : List Node) :
    pathThrough offset start above es = above := by
  induction es generalizing start with
  | nil => rw [pathThrough]
  | cons e rest ih =>
    rw [widthOf_cons] at after
    cases e with
    | leaf t =>
      rw [pathThrough]
      exact ih (by simp only [width] at after; omega)
    | node l children =>
      simp only [width] at after
      rw [pathThrough, if_neg (by simp only [Bool.and_eq_true, decide_eq_true_eq]; omega)]
      exact ih (by omega)

/-! ## The nodes around a leaf -/

mutual

/-- A leaf is a child of the first node around it. -/
theorem parent_of_leafPaths {e : Element} {start : Nat} {above : List Node} {p : Leaf × List Node}
    (mem : p ∈ e.leafPaths start above) :
    e = leaf p.1.token ∨
      ∃ n rest, p.2 = n :: rest ∧ n ∈ e.nodesFrom start ∧ .leaf p.1 ∈ n.parts := by
  cases e with
  | leaf t =>
    obtain rfl := List.mem_singleton.mp mem
    exact .inl rfl
  | node l children =>
    rcases parent_of_leafPathsAll mem with ⟨path, here⟩ | ⟨n, rest, path, inside, here⟩
    · exact .inr ⟨_, above, path, List.mem_cons_self, here⟩
    · exact .inr ⟨n, rest, path, .tail _ inside, here⟩

theorem parent_of_leafPathsAll {es : List Element} {start : Nat} {above : List Node}
    {p : Leaf × List Node} (mem : p ∈ leafPathsAll start above es) :
    p.2 = above ∧ .leaf p.1 ∈ placed start es ∨
      ∃ n rest, p.2 = n :: rest ∧ n ∈ nodesAmong start es ∧ .leaf p.1 ∈ n.parts := by
  cases es with
  | nil => contradiction
  | cons e others =>
    rcases List.mem_append.mp mem with first | later
    · cases e with
      | leaf t =>
        obtain rfl := List.mem_singleton.mp first
        exact .inl ⟨rfl, List.mem_cons_self⟩
      | node l children =>
        obtain ⟨n, rest, path, inside, here⟩ := (parent_of_leafPaths first).resolve_left (by simp)
        exact .inr ⟨n, rest, path, List.mem_append_left _ inside, here⟩
    · rcases parent_of_leafPathsAll later with ⟨path, here⟩ | ⟨n, rest, path, inside, here⟩
      · refine .inl ⟨path, ?_⟩
        cases e <;> exact .tail _ here
      · exact .inr ⟨n, rest, path, List.mem_append_right _ inside, here⟩

end

mutual

/-- A node lies within the element that it is below. -/
theorem bounds_of_mem_nodesFrom {e : Element} (h : e.All Measured) {start : Nat} {n : Node}
    (mem : n ∈ e.nodesFrom start) :
    start ≤ n.start ∧ n.start + n.label.width ≤ start + e.width := by
  cases e with
  | leaf t => contradiction
  | node l children =>
    rcases List.mem_cons.mp mem with rfl | mem
    · exact ⟨Nat.le_refl _, Nat.le_refl _⟩
    · have bounds := bounds_of_mem_nodesAmong h.2 mem
      rwa [← show l.width = widthOf children from h.1] at bounds

theorem bounds_of_mem_nodesAmong {es : List Element} (h : AllOf Measured es) {start : Nat} {n : Node}
    (mem : n ∈ nodesAmong start es) :
    start ≤ n.start ∧ n.start + n.label.width ≤ start + widthOf es := by
  cases es with
  | nil => contradiction
  | cons e rest =>
    rw [widthOf_cons]
    rcases List.mem_append.mp mem with mem | mem
    · have := bounds_of_mem_nodesFrom h.1 mem
      omega
    · have := bounds_of_mem_nodesAmong h.2 mem
      omega

end

mutual

/-- What is below a node of an element is below the element. -/
theorem nodesFrom_trans {e : Element} {start : Nat} {n m : Node} (inside : n ∈ e.nodesFrom start)
    (below : m ∈ n.element.nodesFrom n.start) : m ∈ e.nodesFrom start := by
  cases e with
  | leaf t => contradiction
  | node l children =>
    rcases List.mem_cons.mp inside with rfl | inside
    · exact below
    · exact .tail _ (nodesAmong_trans inside below)

theorem nodesAmong_trans {es : List Element} {start : Nat} {n m : Node}
    (inside : n ∈ nodesAmong start es) (below : m ∈ n.element.nodesFrom n.start) :
    m ∈ nodesAmong start es := by
  cases es with
  | nil => contradiction
  | cons e rest =>
    rcases List.mem_append.mp inside with first | later
    · exact List.mem_append_left _ (nodesFrom_trans first below)
    · exact List.mem_append_right _ (nodesAmong_trans later below)

end

mutual

theorem tokens_of_mem_nodesFrom {e : Element} {start : Nat} {n : Node}
    (mem : n ∈ e.nodesFrom start) : n.element.tokens ⊆ e.tokens := by
  cases e with
  | leaf t => contradiction
  | node l children =>
    rcases List.mem_cons.mp mem with rfl | mem
    · exact List.Subset.refl _
    · exact tokens_of_mem_nodesAmong mem

theorem tokens_of_mem_nodesAmong {es : List Element} {start : Nat} {n : Node}
    (mem : n ∈ nodesAmong start es) : n.element.tokens ⊆ tokensOf es := by
  cases es with
  | nil => contradiction
  | cons e rest =>
    rcases List.mem_append.mp mem with first | later
    · exact List.subset_append_of_subset_left _ (tokens_of_mem_nodesFrom first)
    · exact List.subset_append_of_subset_right _ (tokens_of_mem_nodesAmong later)

end

mutual

/-- Of two nodes around one offset, one is below the other. -/
theorem nested_of_contains {e : Element} (h : e.All Measured) {offset start : Nat} {m n : Node}
    (hm : m ∈ e.nodesFrom start) (hn : n ∈ e.nodesFrom start) (inM : m.Contains offset)
    (inN : n.Contains offset) :
    m ∈ n.element.nodesFrom n.start ∨ n ∈ m.element.nodesFrom m.start := by
  cases e with
  | leaf t => contradiction
  | node l children =>
    rcases List.mem_cons.mp hm with rfl | below
    · exact .inr hn
    · rcases List.mem_cons.mp hn with rfl | below'
      · exact .inl hm
      · exact nestedAmong_of_contains h.2 below below' inM inN

theorem nestedAmong_of_contains {es : List Element} (h : AllOf Measured es) {offset start : Nat}
    {m n : Node} (hm : m ∈ nodesAmong start es) (hn : n ∈ nodesAmong start es)
    (inM : m.Contains offset) (inN : n.Contains offset) :
    m ∈ n.element.nodesFrom n.start ∨ n ∈ m.element.nodesFrom m.start := by
  cases es with
  | nil => contradiction
  | cons e rest =>
    obtain ⟨⟨low, high⟩, low', high'⟩ := And.intro inM inN
    rcases List.mem_append.mp hm, List.mem_append.mp hn with ⟨first | later, first' | later'⟩
    · exact nested_of_contains h.1 first first' inM inN
    · have := bounds_of_mem_nodesFrom h.1 first
      have := bounds_of_mem_nodesAmong h.2 later'
      omega
    · have := bounds_of_mem_nodesAmong h.2 later
      have := bounds_of_mem_nodesFrom h.1 first'
      omega
    · exact nestedAmong_of_contains h.2 later later' inM inN

end

theorem mem_nodesAmong_of_placed {start : Nat} {es : List Element} {c : Node}
    (child : .node c ∈ placed start es) : c ∈ nodesAmong start es := by
  induction es generalizing start with
  | nil => contradiction
  | cons e rest ih =>
    cases e with
    | leaf t =>
      rcases List.mem_cons.mp child with eq | later
      · contradiction
      · exact List.mem_append_right _ (ih later)
    | node l children =>
      rcases List.mem_cons.mp child with eq | later
      · obtain rfl := Part.node.inj eq
        exact List.mem_append_left _ List.mem_cons_self
      · exact List.mem_append_right _ (ih later)

/-- Among elements that follow each other, what is around an offset is below the one there. -/
theorem mem_nodesFrom_of_placed {es : List Element} (h : AllOf Measured es) {offset start : Nat}
    {c m : Node} (child : .node c ∈ placed start es) (inC : c.Contains offset)
    (below : m ∈ nodesAmong start es) (inM : m.Contains offset) :
    m ∈ c.element.nodesFrom c.start := by
  induction es generalizing start with
  | nil => contradiction
  | cons e rest ih =>
    obtain ⟨⟨low, high⟩, low', high'⟩ := And.intro inC inM
    have further (later : .node c ∈ placed (start + e.width) rest) :
        m ∈ c.element.nodesFrom c.start := by
      rcases List.mem_append.mp below with first | below
      · have := bounds_of_mem_nodesFrom h.1 first
        have := bounds_of_mem_nodesAmong h.2 (mem_nodesAmong_of_placed later)
        omega
      · exact ih h.2 later below
    cases e with
    | leaf t =>
      rcases List.mem_cons.mp child with eq | later
      · contradiction
      · exact further later
    | node l children =>
      rcases List.mem_cons.mp child with eq | later
      · obtain rfl := Part.node.inj eq
        rcases List.mem_append.mp below with first | below
        · exact first
        · have := bounds_of_mem_nodesAmong h.2 below
          dsimp only [width] at this high
          omega
      · exact further later

mutual

/-- A node and a leaf around one offset are one below the other. -/
theorem mem_leafPaths_of_contains {e : Element} (h : e.All Measured) {offset start : Nat}
    {above : List Node} {p : Leaf × List Node} {m : Node} (mem : p ∈ e.leafPaths start above)
    (here : p.1.Contains offset) (inside : m ∈ e.nodesFrom start) (around : m.Contains offset) :
    ∃ outer, p ∈ m.element.leafPaths m.start outer := by
  cases e with
  | leaf t => contradiction
  | node l children =>
    rcases List.mem_cons.mp inside with rfl | inside
    · exact ⟨above, mem⟩
    · exact mem_leafPathsAll_of_contains h.2 mem here inside around

theorem mem_leafPathsAll_of_contains {es : List Element} (h : AllOf Measured es) {offset start : Nat}
    {above : List Node} {p : Leaf × List Node} {m : Node} (mem : p ∈ leafPathsAll start above es)
    (here : p.1.Contains offset) (inside : m ∈ nodesAmong start es) (around : m.Contains offset) :
    ∃ outer, p ∈ m.element.leafPaths m.start outer := by
  cases es with
  | nil => contradiction
  | cons e rest =>
    obtain ⟨⟨low, high⟩, from_, upto⟩ := And.intro here around
    rcases List.mem_append.mp mem, List.mem_append.mp inside with ⟨first | later, first' | later'⟩
    · exact mem_leafPaths_of_contains h.1 first here first' around
    · have := bounds_of_mem h.1 first
      have := bounds_of_mem_nodesAmong h.2 later'
      omega
    · have := start_le_of_leafPathsAll h.2 later
      have := bounds_of_mem_nodesFrom h.1 first'
      omega
    · exact mem_leafPathsAll_of_contains h.2 later here later' around

end

end Element

namespace Tree

open Element

/-! ## Texts that are too long -/

/-- A text that is too long for the offsets, in one leaf of one error node. -/
structure Vast (t : Tree) (l : Label) (token : Token) : Prop where
  children : t.children = [.node l [.leaf token]]
  text : token.text = t.text
  width : l.width = maxOffset
  long : maxOffset < t.text.length

/-- The widths of a tree are right, or they cannot be. -/
def Spaced (t : Tree) : Prop := t.element.All Measured ∨ ∃ l token, t.Vast l token

theorem parseIn_vast (arena : Arena) (opts : ParseOptions) {text : Bytes}
    (long : maxOffset < text.length) : ∃ l token, (parseIn arena opts text).Vast l token := by
  have tooLong : parseIn arena opts text = tooLong arena opts text := by simp [parseIn, long]
  rw [tooLong]
  exact ⟨_, _, rfl, rfl, Nat.min_eq_right (Nat.le_of_lt long), long⟩

theorem parse_spaced (text : Bytes) (opts : ParseOptions) : (parse text opts).Spaced := by
  by_cases long : maxOffset < text.length
  · exact .inr (parseIn_vast {} opts long)
  · refine .inl ((parseIn_lossless {} opts text).measured.resolve_right fun tall => long ?_)
    simpa using tall.1

theorem Vast.compact {t : Tree} {l : Label} {token : Token} (h : t.Vast l token) :
    ∃ l', t.compact.Vast l' token := by
  obtain ⟨children, text, width, long⟩ := h
  have same := relabel_compact (f := Label.unnumbered) (fun _ _ => rfl) t
  simp only [element, relabel, node.injEq, children, relabelOf_eq_map, List.map_cons, List.map_nil,
    List.map_eq_singleton_iff] at same
  obtain ⟨-, e, only, same⟩ := same
  cases e with
  | leaf s => simp [relabel] at same
  | node l' inside =>
    simp only [relabel, node.injEq, relabelOf_eq_map, List.map_eq_singleton_iff] at same
    obtain ⟨label, e, rfl, same⟩ := same
    cases e with
    | node => simp [relabel] at same
    | leaf s =>
      obtain rfl : s = token := by simpa [relabel] using same
      have same : l'.unnumbered.width = l.unnumbered.width := congrArg Label.width label
      exact ⟨l', only, text, same.trans width, long⟩

theorem compact_spaced {t : Tree} (h : t.Spaced) : t.compact.Spaced := by
  rcases h with measured | ⟨l, token, vast⟩
  · have same := relabel_compact (f := Label.unnumbered) (fun _ _ => rfl) t
    exact .inl ((all_iff_of_relabel same (measured_relabel fun _ => rfl)).mpr measured)
  · obtain ⟨l', vast'⟩ := vast.compact
    exact .inr ⟨l', token, vast'⟩

theorem revise_spaced {t : Tree} (lossless : t.Lossless) (h : t.Spaced) (step : Revision) :
    (t.revise step).Spaced := by
  cases step with
  | compact => exact compact_spaced h
  | edit edit opts =>
    simp only [revise]
    cases read : t.reparse edit opts with
    | error e => exact h
    | ok r =>
      obtain ⟨text, applied, ⟨_, eq⟩ | ⟨_, n, tree, ⟨p⟩, _, _, eq⟩⟩ := reparse_cases read lossless
      · dsimp only
        rw [eq]
        exact parse_spaced _ _
      · have whole : tree.Spaced := .inl (p.remeasured lossless)
        rcases eq with eq | eq <;> dsimp only <;> rw [eq]
        · exact whole
        · exact compact_spaced whole

/-- The widths of every tree that a document ever has are right, or they cannot be. -/
theorem revisions_spaced {t : Tree} (lossless : t.Lossless) (h : t.Spaced) (steps : List Revision) :
    (t.revisions steps).Spaced := by
  induction steps generalizing t with
  | nil => exact h
  | cons step rest ih =>
    exact ih (revise_lossless lossless step).1 (revise_spaced lossless h step)

/-! ## Queries -/

/-- What the queries at an offset find: the one leaf there, in the innermost node. -/
structure Finds (t : Tree) (offset : Nat) (l : Leaf) (n : Node) (above : List Node) : Prop where
  leafAt : t.leafAt? offset = some (l, n :: above)
  pathAt : t.pathAt offset = n :: above
  mem : (l, n :: above) ∈ t.leafPaths
  contains : l.Contains offset
  unique : ∀ p ∈ t.leafPaths, p.1.Contains offset → p = (l, n :: above)
  parent : .leaf l ∈ n.parts
  around : n ∈ t.element.nodesFrom 0 ∧ n.Contains offset
  innermost : ∀ m ∈ t.element.nodesFrom 0, m.Contains offset → n ∈ m.element.nodesFrom m.start

theorem finds_of_measured {t : Tree} (measured : t.element.All Measured) {offset : Nat}
    (inside : offset < t.element.text.length) : ∃ l n above, t.Finds offset l n above := by
  rw [text_eq_tokens, ← Nat.zero_add (Token.textOf _).length] at inside
  obtain ⟨l, there, here⟩ := Leaf.exists_located (Nat.zero_le offset) inside
  rw [← leafPaths_eq measured 0 [], List.mem_map] at there
  obtain ⟨p, mem, rfl⟩ := there
  obtain ⟨n, above, path, below, parent⟩ :=
    (parent_of_leafPaths mem).resolve_left (by simp [element])
  obtain ⟨l, p2⟩ := p
  obtain rfl : p2 = n :: above := path
  have innermost (m : Node) (node : m ∈ t.element.nodesFrom 0) (around : m.Contains offset) :
      n ∈ m.element.nodesFrom m.start := by
    obtain ⟨outer, mem⟩ := mem_leafPaths_of_contains measured mem here node around
    obtain ⟨n', rest, path, below, -⟩ :=
      (parent_of_leafPaths mem).resolve_left (by simp [Node.element])
    obtain ⟨rfl, -⟩ := List.cons.inj path
    exact below
  have around : n.Contains offset := by
    obtain ⟨i, placed⟩ := List.getElem?_of_mem parent
    have bounds := bounds_of_mem (e := n.element) (all_of_mem_nodesFrom measured below)
      (mem_leafPathsAll_of_placed placed (n :: above))
    exact ⟨Nat.le_trans bounds.1 here.1, Nat.lt_of_lt_of_le here.2 bounds.2⟩
  refine ⟨l, n, above, leafAt?_eq measured mem here, ?_, mem, here, fun q there same => ?_, parent,
    ⟨below, around⟩, innermost⟩
  · exact pathThrough_eq measured.2 mem here
  · exact Leaf.Contains.eq_of_pairwise (pairwise_leafPathsAll measured.2 0 _) there mem same here

theorem Vast.leafPaths_eq {t : Tree} {l : Label} {token : Token} (h : t.Vast l token) :
    t.leafPaths = [(⟨0, token⟩, [⟨0, l, [.leaf token]⟩, t.root])] := by
  simp [Tree.leafPaths, element, root, h.children, Element.leafPaths, leafPathsAll]

theorem Vast.finds {t : Tree} {label : Label} {token : Token} (h : t.Vast label token)
    {offset : Nat} (inside : offset < t.text.length) (fits : offset < maxOffset) :
    ∃ l n above, t.Finds offset l n above := by
  have around : Node.Contains ⟨0, label, [.leaf token]⟩ offset :=
    ⟨Nat.zero_le _, by rw [Nat.zero_add, h.width]; exact fits⟩
  have here : Leaf.Contains ⟨0, token⟩ offset :=
    ⟨Nat.zero_le _, by rw [Nat.zero_add, Leaf.text, h.text]; exact inside⟩
  have path : t.pathAt offset = [⟨0, label, [.leaf token]⟩, t.root] := by
    rw [pathAt, h.children, pathThrough, if_pos (by simpa [Node.Contains] using around), pathInto,
      pathThrough, pathThrough]
  refine ⟨⟨0, token⟩, ⟨0, label, [.leaf token]⟩, [t.root], ?_, path, ?_, here, ?_, ?_, ?_, ?_⟩
  · rw [leafAt?, path]
    simp [leafPathsAll, Element.leafPaths, Leaf.text, h.text, inside]
  · simp [h.leafPaths_eq]
  · simp [h.leafPaths_eq]
  · simp [Node.parts, placed]
  · exact ⟨by simp [element, h.children, nodesFrom, nodesAmong], around⟩
  · simp [element, h.children, nodesFrom, nodesAmong, Node.element]

theorem leafAt?_of_passed {t : Tree} {offset : Nat} (passed : widthOf t.children ≤ offset)
    (outside : ∀ p ∈ t.leafPaths, ¬ p.1.Contains offset) (after : t.text.length ≤ offset) :
    t.leafAt? offset = t.leafPaths.getLast? := by
  have path : t.pathAt offset = [t.root] := pathThrough_of_le (by omega) _
  have none : (leafPathsAll 0 [t.root] t.children).find?
      (fun p => p.1.start ≤ offset && offset < p.1.start + p.1.text.length) = none := by
    refine List.find?_eq_none.mpr fun p mem => ?_
    simpa [Leaf.Contains] using outside p mem
  rw [leafAt?, path]
  dsimp only [root] at none ⊢
  rw [none]
  exact if_pos after

/-- At the end of the text and behind it the last leaf is found. -/
theorem Spaced.leafAt?_of_le {t : Tree} (h : t.Spaced) (lossless : t.Lossless) {offset : Nat}
    (after : t.text.length ≤ offset) : t.leafAt? offset = t.leafPaths.getLast? := by
  rcases h with measured | ⟨l, token, vast⟩
  · have width : t.element.width = t.text.length := by rw [width_eq measured, lossless.text]
    refine leafAt?_of_passed ?_ (fun p mem here => ?_) after
    · rw [← show t.label.width = widthOf t.children from measured.1]
      exact Nat.le_trans (Nat.le_of_eq width) after
    · have bounds := bounds_of_mem measured mem
      have := here.2
      omega
  · refine leafAt?_of_passed ?_ (fun p mem here => ?_) after
    · simp only [vast.children, widthOf_cons, widthOf_nil, Element.width, vast.width]
      have := vast.long
      omega
    · rw [vast.leafPaths_eq] at mem
      obtain rfl := List.mem_singleton.mp mem
      have := here.2
      simp only [Leaf.text, vast.text] at this
      omega

end Tree

end AvroIdl
