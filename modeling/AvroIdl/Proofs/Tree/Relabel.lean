import AvroIdl.Proofs.Tree.Shape
import AvroIdl.Tree.Compact

/-!
# Trees that differ in their labels

Two trees of one text can differ in the numbers and in the stamps of their nodes only. They are
compared after these are struck out: `Element.relabel` changes all labels of an element, and
`Label.bare` strikes out the number and the generation.

A copy of an element has other numbers and is the same otherwise, `Element.relabel_copy`. What is asked
of a node at its place does not depend on numbers and stamps: `Node.parts_relabel`.
-/

namespace AvroIdl

namespace Label

/-- A label without its number. -/
def unnumbered (l : Label) : Label := { l with id := 0 }

/-- A label without its number and its stamp. -/
def bare (l : Label) : Label := { l with id := 0, generation := 0 }

end Label

namespace Element

variable {f : Label → Label}

mutual

/-- An element with other labels. -/
def relabel (f : Label → Label) : Element → Element
  | leaf t => leaf t
  | node l children => node (f l) (relabelOf f children)

/-- Elements with other labels. -/
def relabelOf (f : Label → Label) : List Element → List Element
  | [] => []
  | e :: rest => e.relabel f :: relabelOf f rest

end

theorem relabelOf_eq_map (f : Label → Label) (es : List Element) :
    relabelOf f es = es.map (relabel f) := by
  induction es with
  | nil => rfl
  | cons e rest ih => rw [relabelOf, ih, List.map_cons]

mutual

theorem tokens_relabel (f : Label → Label) (e : Element) : (e.relabel f).tokens = e.tokens := by
  cases e with
  | leaf t => rfl
  | node l children => simpa [relabel, tokens] using tokensOf_relabelOf f children

theorem tokensOf_relabelOf (f : Label → Label) (es : List Element) :
    tokensOf (relabelOf f es) = tokensOf es := by
  cases es with
  | nil => rfl
  | cons e rest => simp [relabelOf, tokensOf, tokens_relabel f e, tokensOf_relabelOf f rest]

end

mutual

theorem relabel_relabel (f g : Label → Label) (e : Element) :
    (e.relabel f).relabel g = e.relabel (g ∘ f) := by
  cases e with
  | leaf t => rfl
  | node l children => simp [relabel, relabelOf_relabelOf f g children]

theorem relabelOf_relabelOf (f g : Label → Label) (es : List Element) :
    relabelOf g (relabelOf f es) = relabelOf (g ∘ f) es := by
  cases es with
  | nil => rfl
  | cons e rest => simp [relabelOf, relabel_relabel f g e, relabelOf_relabelOf f g rest]

end

mutual

/-- What does not depend on what `f` changes holds of every node before as after. -/
theorem all_relabel {P Q : Label → List Element → Prop}
    (h : ∀ l children, P (f l) (relabelOf f children) ↔ Q l children) (e : Element) :
    (e.relabel f).All P ↔ e.All Q := by
  cases e with
  | leaf t => rfl
  | node l children => simp [relabel, All, h l children, allOf_relabelOf h children]

theorem allOf_relabelOf {P Q : Label → List Element → Prop}
    (h : ∀ l children, P (f l) (relabelOf f children) ↔ Q l children) (es : List Element) :
    AllOf P (relabelOf f es) ↔ AllOf Q es := by
  cases es with
  | nil => rfl
  | cons e rest => simp [relabelOf, AllOf, all_relabel h e, allOf_relabelOf h rest]

end

/-- Elements that differ in what `f` strikes out agree on what does not depend on it. -/
theorem all_iff_of_relabel {P : Label → List Element → Prop} {e e' : Element}
    (same : e.relabel f = e'.relabel f)
    (h : ∀ l children, P (f l) (relabelOf f children) ↔ P l children) : e.All P ↔ e'.All P := by
  rw [← all_relabel h e, same, all_relabel h e']

/-- The widths of elements do not depend on numbers and stamps. -/
theorem widthOf_relabelOf (h : ∀ l, (f l).width = l.width) (es : List Element) :
    widthOf (relabelOf f es) = widthOf es := by
  induction es with
  | nil => rfl
  | cons e rest ih => cases e <;> simp [relabelOf, relabel, width, h, ih]

theorem hasError_relabel (h : ∀ l, (f l).hasError = l.hasError) (e : Element) :
    (e.relabel f).hasError = e.hasError := by
  cases e <;> simp [relabel, hasError, h]

theorem any_hasError_relabelOf (h : ∀ l, (f l).hasError = l.hasError) (es : List Element) :
    (relabelOf f es).any hasError = es.any hasError := by
  rw [relabelOf_eq_map, List.any_map]
  exact congrArg (es.any ·) (funext fun e => hasError_relabel h e)

theorem measured_relabel (h : ∀ l, (f l).width = l.width) (l : Label) (children : List Element) :
    Measured (f l) (relabelOf f children) ↔ Measured l children := by
  rw [Measured, Measured, h, widthOf_relabelOf h]

theorem marked_relabel (h : ∀ l, (f l).hasError = l.hasError) (h' : ∀ l, (f l).kind = l.kind)
    (l : Label) (children : List Element) :
    Marked (f l) (relabelOf f children) ↔ Marked l children := by
  rw [Marked, Marked, h, h', any_hasError_relabelOf h]

theorem aged_relabel (h : ∀ l, (f l).generation = l.generation) (l : Label)
    (children : List Element) : Aged (f l) (relabelOf f children) ↔ Aged l children := by
  have mem : ∀ l' inside, node l' inside ∈ relabelOf f children ↔
      ∃ l₀ inside₀, node l₀ inside₀ ∈ children ∧ f l₀ = l' ∧ relabelOf f inside₀ = inside := by
    intro l' inside
    rw [relabelOf_eq_map, List.mem_map]
    constructor
    · rintro ⟨e, he, eq⟩
      cases e with
      | leaf t => simp [relabel] at eq
      | node l₀ inside₀ => exact ⟨l₀, inside₀, he, by simpa [relabel] using eq⟩
    · rintro ⟨l₀, inside₀, he, rfl, rfl⟩
      exact ⟨_, he, rfl⟩
  constructor
  · intro aged l₀ inside₀ he
    have := aged _ _ ((mem _ _).mpr ⟨l₀, inside₀, he, rfl, rfl⟩)
    rwa [h, h] at this
  · rintro aged l' inside he
    obtain ⟨l₀, inside₀, old, rfl, rfl⟩ := (mem _ _).mp he
    rw [h, h]
    exact aged l₀ inside₀ old

mutual

theorem nodeCount_relabel (f : Label → Label) (e : Element) :
    (e.relabel f).nodeCount = e.nodeCount := by
  cases e with
  | leaf t => rfl
  | node l children => rw [relabel, nodeCount, nodeCount, nodeCountOf_relabelOf f children]

theorem nodeCountOf_relabelOf (f : Label → Label) (es : List Element) :
    nodeCountOf (relabelOf f es) = nodeCountOf es := by
  cases es with
  | nil => rfl
  | cons e rest =>
    rw [relabelOf, nodeCountOf, nodeCountOf, nodeCount_relabel f e, nodeCountOf_relabelOf f rest]

end

mutual

/-- The places of the leaves depend on the widths of the nodes only. -/
theorem leavesFrom_relabel (width : ∀ l, (f l).width = l.width) (start : Nat) (e : Element) :
    (e.relabel f).leavesFrom start = e.leavesFrom start := by
  cases e with
  | leaf t => rfl
  | node l children => exact leavesFromAll_relabelOf width start children

theorem leavesFromAll_relabelOf (width : ∀ l, (f l).width = l.width) (start : Nat)
    (es : List Element) : leavesFromAll start (relabelOf f es) = leavesFromAll start es := by
  cases es with
  | nil => rfl
  | cons e rest =>
    have same : (e.relabel f).width = e.width := by
      cases e with
      | leaf t => rfl
      | node l children => exact width l
    rw [relabelOf, leavesFromAll, leavesFromAll, same, leavesFrom_relabel width start e,
      leavesFromAll_relabelOf width _ rest]

end

/-! ## Diagnostics -/

mutual

/-- Errors are reported without numbers and stamps. -/
theorem diagnosticsFrom_bare (start : Nat) (e : Element) :
    (e.relabel Label.bare).diagnosticsFrom start = e.diagnosticsFrom start := by
  cases e with
  | leaf t => rfl
  | node l children =>
    simp only [relabel, diagnosticsFrom, diagnosticsFromAll_bare start children]
    rfl

theorem diagnosticsFromAll_bare (start : Nat) (es : List Element) :
    diagnosticsFromAll start (relabelOf Label.bare es) = diagnosticsFromAll start es := by
  cases es with
  | nil => rfl
  | cons e rest =>
    have width : (e.relabel Label.bare).width = e.width := by cases e <;> rfl
    simp only [relabelOf, diagnosticsFromAll, width, diagnosticsFrom_bare start e,
      diagnosticsFromAll_bare _ rest]

end

/-! ## Copies -/

mutual

theorem relabel_copy (h : ∀ l id, f { l with id } = f l) (arena : Arena) (e : Element) :
    (e.copy arena).2.relabel f = e.relabel f := by
  cases e with
  | leaf t => rfl
  | node l children => simp [copy, relabel, h, relabelOf_copyAll h arena children]

theorem relabelOf_copyAll (h : ∀ l id, f { l with id } = f l) (arena : Arena)
    (es : List Element) : relabelOf f (copyAll arena es).2 = relabelOf f es := by
  cases es with
  | nil => rfl
  | cons e rest => simp [copyAll, relabelOf, relabel_copy h arena e, relabelOf_copyAll h _ rest]

end

mutual

/-- The nodes of a copy take the numbers that come next in the arena. -/
theorem numbered_copy (arena : Arena) (e : Element) :
    arena.nodes ≤ (e.copy arena).1.nodes ∧
      Numbered arena.nodes (e.copy arena).1.nodes [(e.copy arena).2] := by
  cases e with
  | leaf t => exact ⟨Nat.le_refl _, List.nodup_nil, nofun⟩
  | node l children =>
    obtain ⟨le, numbered⟩ := numbered_copyAll arena children
    exact ⟨Nat.le_succ_of_le le, numbered.node rfl le⟩

theorem numbered_copyAll (arena : Arena) (es : List Element) :
    arena.nodes ≤ (copyAll arena es).1.nodes ∧
      Numbered arena.nodes (copyAll arena es).1.nodes (copyAll arena es).2 := by
  cases es with
  | nil => exact ⟨Nat.le_refl _, Numbered.nil _ _⟩
  | cons e rest =>
    obtain ⟨le, first⟩ := numbered_copy arena e
    obtain ⟨le', others⟩ := numbered_copyAll (e.copy arena).1 rest
    exact ⟨Nat.le_trans le le', first.append others le' le⟩

end

end Element

/-! ## Nodes at their places -/

/-- A node with other labels. -/
def Node.relabel (f : Label → Label) (n : Node) : Node :=
  ⟨n.start, f n.label, n.children.map (Element.relabel f)⟩

/-- A child with other labels. -/
def Part.relabel (f : Label → Label) : Part → Part
  | leaf l => leaf l
  | node n => node (n.relabel f)

section

variable {f : Label → Label} (width : ∀ l, (f l).width = l.width)

include width

theorem Element.placed_relabel (start : Nat) (es : List Element) :
    placed start (es.map (relabel f)) = (placed start es).map (Part.relabel f) := by
  induction es generalizing start with
  | nil => rfl
  | cons e rest ih =>
    cases e with
    | leaf t => simp [placed, relabel, Part.relabel, ih]
    | node l children =>
      simp [placed, relabel, Part.relabel, Node.relabel, relabelOf_eq_map, width, ih]

namespace Node

variable (n : Node)

theorem parts_relabel : (n.relabel f).parts = n.parts.map (Part.relabel f) :=
  Element.placed_relabel width n.start n.children

theorem leaves_relabel : (n.relabel f).leaves = n.leaves := by
  rw [leaves, leaves, parts_relabel width, List.filterMap_map]
  congr 1
  funext part
  cases part <;> rfl

theorem allLeaves_relabel : (n.relabel f).allLeaves = n.allLeaves := by
  have same := Element.leavesFromAll_relabelOf width n.start n.children
  rwa [Element.relabelOf_eq_map] at same

theorem name?_relabel (name : ∀ l, (f l).name = l.name) : (n.relabel f).name? = n.name? := by
  rw [name?, name?, parts_relabel width, show (n.relabel f).label.name = n.label.name from name _]
  congr 1
  funext i
  rw [List.getElem?_map]
  cases n.parts[i]? with
  | none => rfl
  | some part => cases part <;> rfl

end Node

end

namespace Tree

/-- A tree in an arena of its own differs from the tree in its numbers. -/
theorem relabel_compact {f : Label → Label} (h : ∀ l id, f { l with id } = f l) (t : Tree) :
    t.compact.element.relabel f = t.element.relabel f := Element.relabel_copy h {} t.element

theorem numbered_compact (t : Tree) :
    Element.Numbered 0 t.compact.arena.nodes [t.compact.element] :=
  (Element.numbered_copy {} t.element).2

end Tree

end AvroIdl
