import AvroIdl.Proofs.Token.Partition
import AvroIdl.Tree.Node
import Mathlib.Data.List.Nodup

/-!
# The shape of trees

What can be said of a tree node by node, and what follows for the whole of it.

* `Element.All`: a property of every node of an element;
* `Element.Measured`: a node is as wide as its children together. Then the width of an element is
  the length of its text, `Element.width_eq`;
* `Element.ids`: the numbers of the nodes. `Element.Numbered` says that no two nodes share one, and
  that all are taken from a range.
-/

namespace AvroIdl

namespace Element

mutual

/-- The tokens of an element, in the order of the text. -/
def tokens : Element → List Token
  | leaf t => [t]
  | node _ children => tokensOf children

/-- The tokens of elements that follow each other. -/
def tokensOf : List Element → List Token
  | [] => []
  | e :: rest => e.tokens ++ tokensOf rest

end

@[simp] theorem tokensOf_append (as bs : List Element) :
    tokensOf (as ++ bs) = tokensOf as ++ tokensOf bs := by
  induction as with
  | nil => rfl
  | cons e rest ih => simp [tokensOf, ih]

mutual

theorem text_eq_tokens (e : Element) : e.text = Token.textOf e.tokens := by
  cases e with
  | leaf t => simp [text, tokens]
  | node l children => simpa [text, tokens] using textOf_eq_tokens children

theorem textOf_eq_tokens (es : List Element) : textOf es = Token.textOf (tokensOf es) := by
  cases es with
  | nil => rfl
  | cons e rest => simp [textOf, tokensOf, text_eq_tokens e, textOf_eq_tokens rest]

end

@[simp] theorem textOf_append (as bs : List Element) : textOf (as ++ bs) = textOf as ++ textOf bs := by
  simp [textOf_eq_tokens]

/-! ## Every node -/

section

variable (P : Label → List Element → Prop)

mutual

/-- A property holds of every node of an element and its children. -/
def All : Element → Prop
  | leaf _ => True
  | node l children => P l children ∧ AllOf children

/-- A property holds of every node of some elements and its children. -/
def AllOf : List Element → Prop
  | [] => True
  | e :: rest => e.All ∧ AllOf rest

end

end

variable {P Q : Label → List Element → Prop}

theorem allOf_iff {es : List Element} : AllOf P es ↔ ∀ e ∈ es, e.All P := by
  induction es with
  | nil => simp [AllOf]
  | cons e rest ih => simp [AllOf, ih]

@[simp] theorem allOf_append {as bs : List Element} :
    AllOf P (as ++ bs) ↔ AllOf P as ∧ AllOf P bs := by
  simp [allOf_iff, or_imp, forall_and]

@[simp] theorem allOf_reverse {es : List Element} : AllOf P es.reverse ↔ AllOf P es := by
  simp [allOf_iff]

mutual

theorem All.imp (imp : ∀ l children, P l children → AllOf P children → Q l children)
    {e : Element} (h : e.All P) : e.All Q := by
  cases e with
  | leaf => trivial
  | node l children => exact ⟨imp l children h.1 h.2, AllOf.imp imp h.2⟩

theorem AllOf.imp (imp : ∀ l children, P l children → AllOf P children → Q l children)
    {es : List Element} (h : AllOf P es) : AllOf Q es := by
  cases es with
  | nil => trivial
  | cons e rest => exact ⟨All.imp imp h.1, AllOf.imp imp h.2⟩

end

/-! ## Widths -/

/-- The number of bytes of elements that follow each other. -/
def widthOf (es : List Element) : Nat := es.foldr (fun e n => e.width + n) 0

@[simp] theorem widthOf_nil : widthOf [] = 0 := rfl

@[simp] theorem widthOf_cons (e : Element) (rest : List Element) :
    widthOf (e :: rest) = e.width + widthOf rest := rfl

@[simp] theorem widthOf_append (as bs : List Element) :
    widthOf (as ++ bs) = widthOf as + widthOf bs := by
  induction as with
  | nil => simp
  | cons e rest ih => simp only [List.cons_append, widthOf_cons, ih]; omega

/-- A node is as wide as its children together. -/
def Measured (l : Label) (children : List Element) : Prop := l.width = widthOf children

mutual

/-- The width of an element is the length of its text. -/
theorem width_eq {e : Element} (h : e.All Measured) : e.width = e.text.length := by
  cases e with
  | leaf => rfl
  | node l children => simpa [width, text] using h.1.trans (widthOf_eq h.2)

theorem widthOf_eq {es : List Element} (h : AllOf Measured es) :
    widthOf es = (textOf es).length := by
  cases es with
  | nil => rfl
  | cons e rest => simp [textOf, width_eq h.1, widthOf_eq h.2]

end

/-- A node is marked if it is an error node or one of its children is marked. -/
def Marked (l : Label) (children : List Element) : Prop :=
  l.hasError = (l.kind = .error || children.any Element.hasError)

/-! ## Generations -/

/-- A node is at least as new as its children. -/
def Aged (l : Label) (children : List Element) : Prop :=
  ∀ l' inside, node l' inside ∈ children → l'.generation ≤ l.generation

/-- A node is not newer than a generation. -/
def AtMost (generation : UInt64) (l : Label) (_ : List Element) : Prop := l.generation ≤ generation

mutual

/-- If every node is at least as new as its children, the root is at least as new as all of them. -/
theorem All.atMost {generation : UInt64} {e : Element} (h : e.All Aged)
    (le : ∀ l children, e = node l children → l.generation ≤ generation) :
    e.All (AtMost generation) := by
  cases e with
  | leaf => trivial
  | node l children =>
    have top := le l children rfl
    exact ⟨top, AllOf.atMost h.2 fun l' inside mem => UInt64.le_trans (h.1 l' inside mem) top⟩

theorem AllOf.atMost {generation : UInt64} {es : List Element} (h : AllOf Aged es)
    (le : ∀ l children, node l children ∈ es → l.generation ≤ generation) :
    AllOf (AtMost generation) es := by
  cases es with
  | nil => trivial
  | cons e rest =>
    refine ⟨All.atMost h.1 ?_, AllOf.atMost h.2 fun l children mem => le l children (.tail _ mem)⟩
    rintro l children rfl
    exact le l children List.mem_cons_self

end

/-- Nodes that are all made at the same time are as new as their children. -/
theorem All.aged {generation : UInt64} {e : Element}
    (h : e.All fun l _ => l.generation = generation) : e.All Aged := by
  refine h.imp fun l children here below l' inside mem => ?_
  have there : l'.generation = generation := (allOf_iff.mp below _ mem).1
  rw [here, there]
  exact UInt64.le_refl _

/-! ## Numbers -/

mutual

/-- The numbers of the nodes of an element. -/
def ids : Element → List Nat
  | leaf _ => []
  | node l children => l.id :: idsOf children

/-- The numbers of the nodes of some elements. -/
def idsOf : List Element → List Nat
  | [] => []
  | e :: rest => e.ids ++ idsOf rest

end

@[simp] theorem idsOf_append (as bs : List Element) : idsOf (as ++ bs) = idsOf as ++ idsOf bs := by
  induction as with
  | nil => rfl
  | cons e rest ih => simp [idsOf, ih]

/-- No two nodes share a number, and all numbers lie above `lo` and up to `hi`. -/
structure Numbered (lo hi : Nat) (es : List Element) : Prop where
  nodup : (idsOf es).Nodup
  bounds : ∀ i ∈ idsOf es, lo < i ∧ i ≤ hi

theorem Numbered.nil (lo hi : Nat) : Numbered lo hi [] := ⟨List.nodup_nil, nofun⟩

theorem Numbered.mono {lo hi hi' : Nat} {es : List Element} (h : Numbered lo hi es)
    (le : hi ≤ hi') : Numbered lo hi' es :=
  ⟨h.nodup, fun i mem => ⟨(h.bounds i mem).1, Nat.le_trans (h.bounds i mem).2 le⟩⟩

/-- The next number can be given to a node around elements that follow each other. -/
theorem Numbered.wrap {lo hi : Nat} {before inside after : List Element} {l : Label}
    (h : Numbered lo hi (before ++ inside ++ after)) (id : l.id = hi + 1) (le : lo ≤ hi) :
    Numbered lo (hi + 1) (before ++ [node l inside] ++ after) := by
  have fresh : ∀ i ∈ idsOf (before ++ inside ++ after), i ≠ hi + 1 := by
    intro i mem
    have := (h.bounds i mem).2
    omega
  have perm : (idsOf (before ++ [node l inside] ++ after)).Perm
      ((hi + 1) :: idsOf (before ++ inside ++ after)) := by
    simp only [idsOf_append, idsOf, ids, id, List.append_assoc, List.cons_append]
    exact List.perm_middle
  constructor
  · rw [perm.nodup_iff, List.nodup_cons]
    exact ⟨fun mem => fresh _ mem rfl, h.nodup⟩
  · intro i mem
    rcases List.mem_cons.mp (perm.mem_iff.mp mem) with rfl | mem
    · omega
    · have := h.bounds i mem
      omega

/-- The next number can be given to a node around all elements. -/
theorem Numbered.node {lo hi : Nat} {es : List Element} {l : Label} (h : Numbered lo hi es)
    (id : l.id = hi + 1) (le : lo ≤ hi) : Numbered lo (hi + 1) [node l es] := by
  have around : Numbered lo hi ([] ++ es ++ []) := by simpa using h
  exact around.wrap id le

theorem Numbered.left {lo hi : Nat} {as bs : List Element} (h : Numbered lo hi (as ++ bs)) :
    Numbered lo hi as := by
  obtain ⟨nodup, bounds⟩ := h
  rw [idsOf_append] at nodup bounds
  exact ⟨(List.nodup_append.mp nodup).1, fun i mem => bounds i (List.mem_append_left _ mem)⟩

theorem Numbered.append {lo mid hi : Nat} {as bs : List Element} (ha : Numbered lo mid as)
    (hb : Numbered mid hi bs) (le : mid ≤ hi) (le' : lo ≤ mid) : Numbered lo hi (as ++ bs) := by
  constructor
  · rw [idsOf_append, List.nodup_append]
    refine ⟨ha.nodup, hb.nodup, fun i mi j mj => ?_⟩
    have := ha.bounds i mi
    have := hb.bounds j mj
    omega
  · intro i mem
    rw [idsOf_append, List.mem_append] at mem
    rcases mem with mem | mem
    · have := ha.bounds i mem
      omega
    · have := hb.bounds i mem
      omega

end Element

end AvroIdl
