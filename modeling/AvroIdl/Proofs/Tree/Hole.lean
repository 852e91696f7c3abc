import AvroIdl.Proofs.Tree.Shape
import AvroIdl.Tree.Reparse

/-!
# A node and what is around it

A hole is a node with one child missing. A list of holes, from the inside out, is what is around a
node in a tree, and the tree is what comes out when the node is put there, `Hole.fill`.

* `Tree.leads_pathAt`: the way to a place of a tree is made of the nodes that the holes around it
  become;
* `Tree.splice_eq`: making the nodes around a node anew puts another node into the same holes.
-/

namespace AvroIdl

/-- A node as an element. -/
def Node.element (n : Node) : Element := .node n.label n.children

/-- A node with one child missing. -/
structure Hole where
  label : Label
  before : List Element
  after : List Element

namespace Hole

open Element

/-- The children of the node when the missing one is there. -/
def children (h : Hole) (e : Element) : List Element := h.before ++ e :: h.after

/-- The node with the missing child. -/
def plug (h : Hole) (e : Element) : Element := .node h.label (h.children e)

/-- An element with the nodes around it, from the inside out. -/
def fill (e : Element) : List Hole → Element
  | [] => e
  | h :: outer => fill (h.plug e) outer

/-- Where the missing child starts, when the outermost node starts at zero. -/
def offset : List Hole → Nat
  | [] => 0
  | h :: outer => offset outer + widthOf h.before

/-- The nodes around an element, at their places. -/
def path (e : Element) : List Hole → List Node
  | [] => []
  | h :: outer => ⟨offset outer, h.label, h.children e⟩ :: path (h.plug e) outer

/-- The tokens before the missing child. -/
def front : List Hole → List Token
  | [] => []
  | h :: outer => front outer ++ tokensOf h.before

/-- The tokens after the missing child. -/
def back : List Hole → List Token
  | [] => []
  | h :: outer => tokensOf h.after ++ back outer

theorem tokens_fill (e : Element) (holes : List Hole) :
    (fill e holes).tokens = front holes ++ e.tokens ++ back holes := by
  induction holes generalizing e with
  | nil => simp [fill, front, back]
  | cons h outer ih => simp [fill, ih, plug, children, tokens, tokensOf, front, back]

/-- The numbers of the nodes around the missing child and beside it. -/
def idsOf : List Hole → List Nat
  | [] => []
  | h :: outer => h.label.id :: (Element.idsOf h.before ++ Element.idsOf h.after) ++ idsOf outer

theorem ids_fill (e : Element) (holes : List Hole) :
    (fill e holes).ids.Perm (e.ids ++ idsOf holes) := by
  induction holes generalizing e with
  | nil => simp [fill, idsOf]
  | cons h outer ih =>
    refine (ih (h.plug e)).trans ?_
    rw [List.perm_iff_count]
    intro i
    simp only [plug, children, ids, Element.idsOf_append, Element.idsOf, idsOf, List.count_append,
      List.count_cons]
    omega

theorem all_fill {P : Label → List Element → Prop} {e : Element} {holes : List Hole}
    (h : (fill e holes).All P) : e.All P := by
  induction holes generalizing e with
  | nil => exact h
  | cons hole outer ih =>
    have whole := (ih h).2
    simp only [children, allOf_append, AllOf] at whole
    exact whole.2.1

/-- The width of what is before the missing child is the length of its text. -/
theorem offset_eq {e : Element} {holes : List Hole} (h : (fill e holes).All Measured) :
    offset holes = (Token.textOf (front holes)).length := by
  induction holes generalizing e with
  | nil => rfl
  | cons hole outer ih =>
    have whole := (all_fill (e := hole.plug e) h).2
    simp only [children, allOf_append, AllOf] at whole
    simp [offset, front, ih h, widthOf_eq whole.1, textOf_eq_tokens]

end Hole

/-- A list of nodes is the way from the first of them to the root of a tree. -/
def Node.Leads (root : Element) : List Node → Prop
  | [] => False
  | n :: above => ∃ holes, above = Hole.path n.element holes ∧ n.start = Hole.offset holes ∧
    Hole.fill n.element holes = root

/-- The way from a node to the root goes through its parent. -/
theorem Node.Leads.tail {root : Element} {n a : Node} {above : List Node}
    (h : Node.Leads root (n :: a :: above)) : Node.Leads root (a :: above) := by
  obtain ⟨_ | ⟨hole, outer⟩, way, _, whole⟩ := h
  · simp [Hole.path] at way
  · simp only [Hole.path, List.cons.injEq] at way
    obtain ⟨rfl, rfl⟩ := way
    exact ⟨outer, rfl, rfl, whole⟩

/-- The way to a child goes through its parent. -/
theorem Node.Leads.child {root : Element} {a : Node} {above : List Node}
    (h : Node.Leads root (a :: above)) {before after children : List Element} {l : Label}
    (whole : a.children = before ++ .node l children :: after) :
    Node.Leads root (⟨a.start + Element.widthOf before, l, children⟩ :: a :: above) := by
  obtain ⟨holes, way, start, filled⟩ := h
  obtain ⟨start', l', children'⟩ := a
  subst start whole
  exact ⟨⟨l', before, after⟩ :: holes, by simp [Hole.path, way, Hole.plug, Hole.children,
    Node.element], rfl, filled⟩

namespace Element

mutual

theorem leads_pathInto {root : Element} (offset : Nat) {a : Node} {above : List Node}
    (h : Node.Leads root (a :: above)) {before after : List Element} (e : Element)
    (whole : a.children = before ++ e :: after) :
    Node.Leads root (pathInto offset (a.start + widthOf before) (a :: above) e) := by
  cases e with
  | leaf => simpa [pathInto] using h
  | node l children =>
    rw [pathInto]
    exact leads_pathThrough offset (h.child whole) [] children rfl

theorem leads_pathThrough {root : Element} (offset : Nat) {a : Node} {above : List Node}
    (h : Node.Leads root (a :: above)) (before es : List Element)
    (whole : a.children = before ++ es) :
    Node.Leads root (pathThrough offset (a.start + widthOf before) (a :: above) es) := by
  cases es with
  | nil => simpa [pathThrough] using h
  | cons e rest =>
    have next := leads_pathThrough offset h (before ++ [e]) rest (by simp [whole])
    simp only [widthOf_append, widthOf_cons, widthOf_nil, Nat.add_zero, ← Nat.add_assoc] at next
    cases e with
    | leaf t =>
      rw [pathThrough]
      exact next
    | node l children =>
      rw [pathThrough]
      split
      · exact leads_pathInto offset h (.node l children) whole
      · exact next

end

end Element

/-- The way from the innermost node around an offset leads to the root. -/
theorem Tree.leads_pathAt (t : Tree) (offset : Nat) : Node.Leads t.element (t.pathAt offset) :=
  Element.leads_pathThrough offset (a := t.root) ⟨[], rfl, rfl, rfl⟩ [] t.children rfl

namespace Hole

open Element

/-- A hole of a node made anew, which has `e` in the place of the missing child. -/
def anew (generation : UInt64) (edit : Edit) (nodes : Nat) (e : Element) (h : Hole) : Hole :=
  { h with
    label := { h.label with
      id := nodes + 1
      generation
      width := edit.resize h.label.width
      hasError := h.label.kind = .error || (h.children e).any Element.hasError } }

/-- The holes of nodes made anew around `e`, from the inside out. -/
def renew (generation : UInt64) (edit : Edit) (nodes : Nat) (e : Element) : List Hole → List Hole
  | [] => []
  | h :: outer =>
    h.anew generation edit nodes e ::
      renew generation edit (nodes + 1) ((h.anew generation edit nodes e).plug e) outer

theorem map_replace_of_not_mem {id : NodeId} {e : Element} {es : List Element}
    (h : id ∉ Element.idsOf es) : es.map (replace id e) = es := by
  induction es with
  | nil => rfl
  | cons x rest ih =>
    rw [Element.idsOf, List.mem_append, not_or] at h
    rw [List.map_cons, ih h.2]
    cases x with
    | leaf => rfl
    | node l children =>
      have : l.id ≠ id := by
        rintro rfl
        exact h.1 (by simp [ids])
      simp [replace, this]

/-- In a tree that numbers its nodes, one child has the number of the missing one. -/
theorem map_replace {h : Hole} {old : Label} {inside : List Element}
    (nodup : (h.plug (.node old inside)).ids.Nodup) (e : Element) :
    (h.children (.node old inside)).map (replace old.id e) = h.children e := by
  simp only [plug, children, ids, Element.idsOf_append, Element.idsOf, List.nodup_cons,
    List.nodup_append, List.mem_append, List.mem_cons] at nodup
  obtain ⟨_, _, ⟨⟨_, _⟩, _, apart⟩, apart'⟩ := nodup
  have before : old.id ∉ Element.idsOf h.before := fun mem => apart' _ mem old.id (by simp) rfl
  have after : old.id ∉ Element.idsOf h.after := fun mem => apart old.id (by simp) _ mem rfl
  simp [children, map_replace_of_not_mem before, map_replace_of_not_mem after, replace]

theorem nodup_fill {e : Element} {holes : List Hole} (h : (fill e holes).ids.Nodup) :
    e.ids.Nodup := by
  rw [(ids_fill e holes).nodup_iff, List.nodup_append] at h
  exact h.1

end Hole

/-- Making the nodes around a node anew puts another node into the same holes. -/
theorem Tree.splice_eq {old : Label} {inside : List Element} {holes : List Hole}
    (nodup : (Hole.fill (.node old inside) holes).ids.Nodup) (generation : UInt64) (edit : Edit)
    (arena : Arena) (l : Label) (children : List Element) :
    ∃ label' children', Tree.splice generation edit arena old.id l children
        (Hole.path (.node old inside) holes) =
          (⟨arena.nodes + holes.length, arena.leaves⟩, label', children') ∧
      .node label' children' = Hole.fill (.node l children)
        (Hole.renew generation edit arena.nodes (.node l children) holes) := by
  induction holes generalizing old inside arena l children with
  | nil => exact ⟨l, children, rfl, rfl⟩
  | cons h outer ih =>
    simp only [Hole.path, splice, Hole.map_replace (Hole.nodup_fill nodup)]
    have outside : (Hole.fill (.node h.label (h.children (.node old inside))) outer).ids.Nodup :=
      nodup
    obtain ⟨label', children', spliced, filled⟩ := ih outside arena.addNode
      { h.label with
        id := arena.nodes + 1
        generation
        width := edit.resize h.label.width
        hasError :=
          h.label.kind = .error || (h.children (.node l children)).any Element.hasError }
      (h.children (.node l children))
    have nodes : arena.nodes + (h :: outer).length = arena.addNode.nodes + outer.length := by
      simp only [Arena.addNode, List.length_cons]
      omega
    refine ⟨label', children', ?_, filled⟩
    rw [nodes]
    exact spliced

namespace Hole

open Element

variable {generation : UInt64} {edit : Edit}

theorem front_renew (nodes : Nat) (e : Element) (holes : List Hole) :
    front (renew generation edit nodes e holes) = front holes := by
  induction holes generalizing nodes e with
  | nil => rfl
  | cons h outer ih => simp [renew, anew, front, ih]

theorem back_renew (nodes : Nat) (e : Element) (holes : List Hole) :
    back (renew generation edit nodes e holes) = back holes := by
  induction holes generalizing nodes e with
  | nil => rfl
  | cons h outer ih => simp [renew, anew, back, ih]

/-- Nodes made anew are as wide as their children, if what is put into the innermost hole is as wide
as the edit makes it. -/
theorem measured_renew {e e' : Element} {holes : List Hole} (h : (fill e holes).All Measured)
    (he : e'.All Measured) (inside : edit.oldLen ≤ e.width) (width : e'.width = edit.resize e.width)
    (nodes : Nat) : (fill e' (renew generation edit nodes e' holes)).All Measured := by
  induction holes generalizing e e' nodes with
  | nil => exact he
  | cons hole outer ih =>
    have whole : (hole.plug e).All Measured := all_fill h
    obtain ⟨sum, parts⟩ := whole
    simp only [Measured, children, widthOf_append, widthOf_cons] at sum
    simp only [children, allOf_append, AllOf] at parts
    simp only [Edit.resize] at width
    rw [renew, fill]
    refine ih (e := hole.plug e) h ?_ ?_ rfl _
    · simp only [anew, plug, children, All, Measured, widthOf_append, widthOf_cons, Edit.resize,
        allOf_append, AllOf]
      exact ⟨by omega, parts.1, he, parts.2.2⟩
    · simp only [plug, Element.width]
      omega

/-- Nodes made anew are marked if there is an error in them. -/
theorem marked_renew {e e' : Element} {holes : List Hole} (h : (fill e holes).All Marked)
    (he : e'.All Marked) (nodes : Nat) :
    (fill e' (renew generation edit nodes e' holes)).All Marked := by
  induction holes generalizing e e' nodes with
  | nil => exact he
  | cons hole outer ih =>
    have whole : (hole.plug e).All Marked := all_fill h
    have parts := whole.2
    simp only [children, allOf_append, AllOf] at parts
    rw [renew, fill]
    refine ih (e := hole.plug e) h ?_ _
    simp only [anew, plug, children, All, allOf_append, AllOf]
    exact ⟨rfl, parts.1, he, parts.2.2⟩

/-- Nodes made anew are at least as new as their children, if no other node is newer. -/
theorem aged_renew {e e' : Element} {holes : List Hole} (h : (fill e holes).All Aged)
    (old : (fill e holes).All (AtMost generation)) (he : e'.All Aged)
    (now : e'.All (AtMost generation)) (nodes : Nat) :
    (fill e' (renew generation edit nodes e' holes)).All Aged := by
  induction holes generalizing e e' nodes with
  | nil => exact he
  | cons hole outer ih =>
    have parts := (all_fill (e := hole.plug e) h).2
    have older := (all_fill (e := hole.plug e) old).2
    simp only [children, allOf_append, AllOf] at parts older
    have inside : AllOf (AtMost generation) (hole.children e') := by
      simp only [children, allOf_append, AllOf]
      exact ⟨older.1, now, older.2.2⟩
    rw [renew, fill]
    refine ih (e := hole.plug e) h old ?_ ?_ _
    · refine ⟨fun l' inside' mem => (allOf_iff.mp inside _ mem).1, ?_⟩
      simp only [anew, children, allOf_append, AllOf]
      exact ⟨parts.1, he, parts.2.2⟩
    · exact ⟨UInt64.le_refl _, inside⟩

/-- The outermost of the nodes made anew is as new as what they are made around. -/
theorem top_renew {l : Label} {inside : List Element} (now : l.generation = generation)
    (edit : Edit) (holes : List Hole) (nodes : Nat) :
    ∃ l' children, fill (.node l inside) (renew generation edit nodes (.node l inside) holes) =
      .node l' children ∧ l'.generation = generation := by
  induction holes generalizing l inside nodes with
  | nil => exact ⟨l, inside, rfl, now⟩
  | cons hole outer ih => exact ih rfl _

/-- The numbers of the nodes beside the missing child. -/
def beside : List Hole → List Nat
  | [] => []
  | h :: outer => Element.idsOf h.before ++ Element.idsOf h.after ++ beside outer

theorem beside_sublist (holes : List Hole) : (beside holes).Sublist (idsOf holes) := by
  induction holes with
  | nil => exact .refl _
  | cons h outer ih => exact .cons _ ((List.Sublist.refl _).append ih)

/-- Nodes made anew take new numbers. -/
theorem numbered_renew {e : Element} {holes : List Hole} {nodes : Nat}
    (nodup : (e.ids ++ beside holes).Nodup) (bound : ∀ i ∈ e.ids ++ beside holes, i ≤ nodes) :
    (fill e (renew generation edit nodes e holes)).ids.Nodup ∧
      ∀ i ∈ (fill e (renew generation edit nodes e holes)).ids, i ≤ nodes + holes.length := by
  induction holes generalizing e nodes with
  | nil =>
    simp only [beside, List.append_nil] at nodup bound
    exact ⟨nodup, bound⟩
  | cons h outer ih =>
    -- The node around `e` takes the number that comes next, and keeps what is beside `e`.
    have perm : (((h.anew generation edit nodes e).plug e).ids ++ beside outer).Perm
        ((nodes + 1) :: (e.ids ++ beside (h :: outer))) := by
      rw [List.perm_iff_count]
      intro i
      simp only [anew, plug, children, ids, Element.idsOf_append, Element.idsOf, beside,
        List.count_append, List.count_cons]
      omega
    have fresh : nodes + 1 ∉ e.ids ++ beside (h :: outer) := fun mem => by
      have := bound _ mem
      omega
    have bound' : ∀ i ∈ ((h.anew generation edit nodes e).plug e).ids ++ beside outer,
        i ≤ nodes + 1 := fun i mem => by
      rcases List.mem_cons.mp (perm.mem_iff.mp mem) with rfl | mem
      · exact Nat.le_refl _
      · exact Nat.le_succ_of_le (bound i mem)
    obtain ⟨nodup', le⟩ := ih (perm.nodup_iff.mpr (List.nodup_cons.mpr ⟨fresh, nodup⟩)) bound'
    refine ⟨nodup', fun i mem => ?_⟩
    have := le i mem
    simp only [List.length_cons]
    omega

end Hole

end AvroIdl
