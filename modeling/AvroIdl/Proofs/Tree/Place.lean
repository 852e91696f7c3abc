import AvroIdl.Proofs.Parser.Naming

/-!
# Leaves at their places

The leaves of a tree are the tokens of its text, each at its place: `Element.leafPaths_eq`. The leaf
that names a node is one of them, and stands right below the node. Numbers tell nodes apart, so that
`Tree.nameOf?` finds the leaf by the number of the node: `Tree.nameOf?_eq`.
-/

namespace AvroIdl

namespace Leaf

/-- Tokens that follow each other at their places, from an offset on. -/
def located (start : Nat) : List Token → List Leaf
  | [] => []
  | t :: rest => ⟨start, t⟩ :: located (start + t.text.length) rest

theorem located_append (start : Nat) (ts us : List Token) :
    located start (ts ++ us) =
      located start ts ++ located (start + (Token.textOf ts).length) us := by
  induction ts generalizing start with
  | nil => simp [located]
  | cons t rest ih => simp [located, ih, Nat.add_assoc]

theorem map_token_located (start : Nat) (ts : List Token) :
    (located start ts).map Leaf.token = ts := by
  induction ts generalizing start with
  | nil => rfl
  | cons t rest ih => rw [located, List.map_cons, ih]

theorem start_le_of_mem {start : Nat} {ts : List Token} {l : Leaf} (h : l ∈ located start ts) :
    start ≤ l.start := by
  induction ts generalizing start with
  | nil => contradiction
  | cons t rest ih =>
    rcases List.mem_cons.mp h with rfl | later
    · exact Nat.le_refl _
    · have := ih later
      omega

/-- Leaves follow each other. -/
theorem pairwise_located (start : Nat) (ts : List Token) :
    (located start ts).Pairwise fun a b => a.start + a.text.length ≤ b.start := by
  induction ts generalizing start with
  | nil => exact .nil
  | cons t rest ih => exact .cons (fun l later => start_le_of_mem later) (ih _)

/-- A leaf is a token of the text, with the text before it and the text after it. -/
theorem split_of_mem {start : Nat} {ts : List Token} {l : Leaf} (h : l ∈ located start ts) :
    ∃ before after, ts = before ++ l.token :: after ∧
      l.start = start + (Token.textOf before).length := by
  induction ts generalizing start with
  | nil => contradiction
  | cons t rest ih =>
    rcases List.mem_cons.mp h with rfl | later
    · exact ⟨[], rest, rfl, rfl⟩
    · obtain ⟨before, after, rfl, place⟩ := ih later
      exact ⟨t :: before, after, rfl, by simp only [place, Token.textOf_cons, List.length_append]; omega⟩

end Leaf

namespace Element

open Leaf (located)

mutual

/-- The leaves of an element are its tokens at their places. -/
theorem leafPaths_eq {e : Element} (h : e.All Measured) (start : Nat) (above : List Node) :
    (e.leafPaths start above).map Prod.fst = located start e.tokens := by
  cases e with
  | leaf t => rfl
  | node l children => exact leafPathsAll_eq h.2 start _

theorem leafPathsAll_eq {es : List Element} (h : AllOf Measured es) (start : Nat)
    (above : List Node) :
    (leafPathsAll start above es).map Prod.fst = located start (tokensOf es) := by
  cases es with
  | nil => rfl
  | cons e rest =>
    rw [leafPathsAll, List.map_append, leafPaths_eq h.1, leafPathsAll_eq h.2, tokensOf,
      Leaf.located_append, width_eq h.1, text_eq_tokens]

end

mutual

/-- A property of all nodes holds of those around a leaf. -/
theorem all_of_leafPaths {P : Label → List Element → Prop} {e : Element} (h : e.All P) {start : Nat}
    {above : List Node} {p : Leaf × List Node} (mem : p ∈ e.leafPaths start above) :
    ∀ n ∈ p.2, n ∈ above ∨ P n.label n.children := by
  cases e with
  | leaf t =>
    obtain rfl := List.mem_singleton.mp mem
    exact fun n here => .inl here
  | node l children =>
    intro n here
    rcases all_of_leafPathsAll h.2 mem n here with here | holds
    · rcases List.mem_cons.mp here with rfl | here
      · exact .inr h.1
      · exact .inl here
    · exact .inr holds

theorem all_of_leafPathsAll {P : Label → List Element → Prop} {es : List Element} (h : AllOf P es)
    {start : Nat} {above : List Node} {p : Leaf × List Node}
    (mem : p ∈ leafPathsAll start above es) : ∀ n ∈ p.2, n ∈ above ∨ P n.label n.children := by
  cases es with
  | nil => contradiction
  | cons e rest =>
    rcases List.mem_append.mp mem with mem | mem
    · exact all_of_leafPaths h.1 mem
    · exact all_of_leafPathsAll h.2 mem

end

/-- A leaf among elements at their places is one of their leaves, right below the nodes around. -/
theorem mem_leafPathsAll_of_placed {start i : Nat} {es : List Element} {l : Leaf}
    (h : (placed start es)[i]? = some (.leaf l)) (above : List Node) :
    (l, above) ∈ leafPathsAll start above es := by
  induction es generalizing start i with
  | nil => simp [placed] at h
  | cons e rest ih =>
    rw [leafPathsAll]
    cases e with
    | leaf t =>
      cases i with
      | zero =>
        rw [placed, List.getElem?_cons_zero, Option.some.injEq, Part.leaf.injEq] at h
        exact List.mem_append_left _ (by simp [leafPaths, h])
      | succ i => exact List.mem_append_right _ (ih h)
    | node l' children =>
      cases i with
      | zero => simp [placed] at h
      | succ i => exact List.mem_append_right _ (ih h)

/-- The leaf that a child at its place stands for. -/
theorem leaf_of_placed {start i : Nat} {es : List Element} {l : Leaf}
    (h : (placed start es)[i]? = some (.leaf l)) : es[i]? = some (.leaf l.token) := by
  induction es generalizing start i with
  | nil => simp [placed] at h
  | cons e rest ih =>
    cases e with
    | leaf t =>
      cases i with
      | zero =>
        rw [placed, List.getElem?_cons_zero, Option.some.injEq, Part.leaf.injEq] at h
        simp [← h]
      | succ i => exact ih h
    | node l' children =>
      cases i with
      | zero => simp [placed] at h
      | succ i => exact ih h

/-- The leaves of a child are leaves of the node. -/
theorem leafPaths_of_childNodes {start : Nat} {es : List Element} {c : Node}
    (h : Part.node c ∈ placed start es) (above : List Node) :
    (leafPathsAll c.start (c :: above) c.children).Sublist (leafPathsAll start above es) := by
  induction es generalizing start with
  | nil => contradiction
  | cons e rest ih =>
    rw [leafPathsAll]
    cases e with
    | leaf t =>
      rcases List.mem_cons.mp h with eq | later
      · contradiction
      · exact (ih later).trans (List.sublist_append_right _ _)
    | node l children =>
      rcases List.mem_cons.mp h with eq | later
      · rw [Part.node.injEq] at eq
        subst eq
        exact List.sublist_append_left _ _
      · exact (ih later).trans (List.sublist_append_right _ _)

end Element

namespace Node

theorem name?_eq_some {n : Node} {l : Leaf} (h : n.name? = some l) :
    ∃ i, n.label.name = some i ∧ n.parts[i]? = some (.leaf l) := by
  rw [name?, Option.bind_eq_some_iff] at h
  obtain ⟨i, index, found⟩ := h
  refine ⟨i, index, ?_⟩
  split at found
  next l' here => rw [here, Option.some.inj found]
  next => contradiction

/-- The leaf that names a node stands right below it. -/
theorem mem_of_name? {n : Node} {l : Leaf} (h : n.name? = some l) (above : List Node) :
    (l, n :: above) ∈ Element.leafPathsAll n.start (n :: above) n.children := by
  obtain ⟨i, -, here⟩ := name?_eq_some h
  exact Element.mem_leafPathsAll_of_placed here _

theorem canBeNamed_of_name? {n : Node} {l : Leaf} (named : Element.Named n.label n.children)
    (h : n.name? = some l) : n.kind.canBeNamed l.token = true := by
  obtain ⟨i, index, here⟩ := name?_eq_some h
  obtain ⟨t, child, can⟩ := named i index
  rw [Element.leaf_of_placed here, Option.some.injEq, Element.leaf.injEq] at child
  rwa [child]

end Node

namespace Element

/-! ## Nodes by number -/

mutual

theorem pathTo?_eq_none {id : NodeId} {e : Element} (h : id ∉ e.ids) (start : Nat)
    (above : List Node) : e.pathTo? id start above = none := by
  cases e with
  | leaf t => rfl
  | node l children =>
    rw [ids, List.mem_cons, not_or] at h
    rw [pathTo?, if_neg (Ne.symm h.1), pathToAmong?_eq_none h.2]

theorem pathToAmong?_eq_none {id : NodeId} {es : List Element} (h : id ∉ idsOf es) (start : Nat)
    (above : List Node) : pathToAmong? id start above es = none := by
  cases es with
  | nil => rfl
  | cons e rest =>
    rw [idsOf, List.mem_append, not_or] at h
    rw [pathToAmong?, pathTo?_eq_none h.1, pathToAmong?_eq_none h.2]
    rfl

end

mutual

/-- The innermost node around a leaf is found by its number, if it is not around all of the
element. -/
theorem pathTo?_of_leafPaths {e : Element} (nodup : e.ids.Nodup) {start : Nat} {above : List Node}
    {l : Leaf} {n : Node} {path : List Node} (mem : (l, n :: path) ∈ e.leafPaths start above) :
    n :: path = above ∨ n.id ∈ e.ids ∧ e.pathTo? n.id start above = some (n :: path) := by
  cases e with
  | leaf t =>
    obtain ⟨-, rfl⟩ := Prod.mk.inj (List.mem_singleton.mp mem)
    exact .inl rfl
  | node l' children =>
    rw [ids, List.nodup_cons] at nodup
    rw [leafPaths] at mem
    refine .inr ?_
    rcases pathToAmong?_of_leafPathsAll nodup.2 mem with here | ⟨inside, found⟩
    · obtain ⟨rfl, rfl⟩ := List.cons.inj here
      exact ⟨List.mem_cons_self, by simp [pathTo?, Node.id]⟩
    · have other : l'.id ≠ n.id := fun same => nodup.1 (same ▸ inside)
      exact ⟨.tail _ inside, by rw [pathTo?, if_neg other, found]⟩

theorem pathToAmong?_of_leafPathsAll {es : List Element} (nodup : (idsOf es).Nodup) {start : Nat}
    {above : List Node} {l : Leaf} {n : Node} {path : List Node}
    (mem : (l, n :: path) ∈ leafPathsAll start above es) :
    n :: path = above ∨ n.id ∈ idsOf es ∧ pathToAmong? n.id start above es = some (n :: path) := by
  cases es with
  | nil => contradiction
  | cons e rest =>
    rw [idsOf, List.nodup_append] at nodup
    obtain ⟨first, others, apart⟩ := nodup
    rw [idsOf, pathToAmong?]
    rcases List.mem_append.mp mem with mem | mem
    · refine (pathTo?_of_leafPaths first mem).imp_right fun ⟨inside, found⟩ => ?_
      exact ⟨List.mem_append_left _ inside, by rw [found]; rfl⟩
    · refine (pathToAmong?_of_leafPathsAll others mem).imp_right fun ⟨inside, found⟩ => ?_
      have none := pathTo?_eq_none (fun there => apart _ there _ inside rfl) start above
      exact ⟨List.mem_append_right _ inside, by rw [none, found]; rfl⟩

end

end Element

namespace Tree

/-- The leaves of a tree, each with the nodes around it. -/
def leafPaths (t : Tree) : List (Leaf × List Node) := t.element.leafPaths 0 []

/-- The leaf that names the node with a number. -/
def nameOf? (t : Tree) (id : NodeId) : Option Leaf :=
  (t.pathTo? id).bind fun path => path.head?.bind Node.name?

/-- A node around a leaf is found by its number. -/
theorem nameOf?_eq {t : Tree} (lossless : t.Lossless) {l : Leaf} {n : Node} {path : List Node}
    (mem : (l, n :: path) ∈ t.leafPaths) : t.nameOf? n.id = n.name? := by
  rcases Element.pathTo?_of_leafPaths lossless.nodup mem with none | ⟨-, found⟩
  · contradiction
  · rw [nameOf?, pathTo?, found]
    rfl

end Tree

end AvroIdl
