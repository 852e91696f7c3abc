import AvroIdl.Proofs.Tree.Relabel
import AvroIdl.Tree.Node

/-!
# Trees without their stamps

Trees of one text that were read at different times differ in the generations that their nodes are
stamped with. `Element.undated` strikes these out. What is asked of a node does not depend on them.
-/

namespace AvroIdl

/-- A label without its stamp. -/
def Label.undated (l : Label) : Label := { l with generation := 0 }

namespace Element

/-- An element without stamps. -/
def undated (e : Element) : Element := e.relabel Label.undated

@[simp] theorem undated_leaf (t : Token) : undated (.leaf t) = .leaf t := rfl

@[simp] theorem undated_node (l : Label) (children : List Element) :
    undated (.node l children) = .node l.undated (children.map undated) := by
  rw [undated, relabel, relabelOf_eq_map]
  rfl

@[simp] theorem width_undated (e : Element) : e.undated.width = e.width := by
  cases e <;> rfl

@[simp] theorem hasError_undated (e : Element) : e.undated.hasError = e.hasError :=
  hasError_relabel (f := Label.undated) (fun _ => rfl) e

theorem diagnosticsFrom_undated (start : Nat) (e : Element) :
    e.undated.diagnosticsFrom start = e.diagnosticsFrom start := by
  rw [← diagnosticsFrom_bare start e, ← diagnosticsFrom_bare, undated, relabel_relabel]
  rfl

end Element

namespace Node

/-- A node without stamps. -/
def undated (n : Node) : Node := ⟨n.start, n.label.undated, n.children.map Element.undated⟩

variable (n : Node)

@[simp] theorem start_undated : n.undated.start = n.start := rfl

@[simp] theorem kind_undated : n.undated.kind = n.kind := rfl

@[simp] theorem id_undated : n.undated.id = n.id := rfl

@[simp] theorem span_undated : n.undated.span = n.span := rfl

@[simp] theorem hasError_undated : n.undated.hasError = n.hasError := rfl

end Node

/-- A child without stamps. -/
def Part.undated : Part → Part
  | leaf l => leaf l
  | node n => node n.undated

theorem Element.placed_undated (start : Nat) (es : List Element) :
    placed start (es.map undated) = (placed start es).map Part.undated := by
  have same : Part.undated = Part.relabel Label.undated := by
    funext part
    cases part <;> rfl
  rw [same]
  exact placed_relabel (f := Label.undated) (fun _ => rfl) start es

namespace Node

variable (n : Node)

@[simp] theorem parts_undated : n.undated.parts = n.parts.map Part.undated :=
  Element.placed_undated n.start n.children

@[simp] theorem childNodes_undated : n.undated.childNodes = n.childNodes.map undated := by
  rw [childNodes, childNodes, parts_undated, List.filterMap_map, List.map_filterMap]
  congr 1
  funext part
  cases part <;> rfl

@[simp] theorem leaves_undated : n.undated.leaves = n.leaves :=
  leaves_relabel (f := Label.undated) (fun _ => rfl) n

@[simp] theorem childrenOf_undated (kind : NodeKind) :
    n.undated.childrenOf kind = (n.childrenOf kind).map undated := by
  rw [childrenOf, childrenOf, childNodes_undated, List.filter_map]
  rfl

@[simp] theorem child?_undated (kind : NodeKind) :
    n.undated.child? kind = (n.child? kind).map undated := by
  rw [child?, child?, childNodes_undated, List.find?_map]
  rfl

@[simp] theorem typeChild?_undated : n.undated.typeChild? = n.typeChild?.map undated := by
  rw [typeChild?, typeChild?, childNodes_undated, List.find?_map]
  rfl

@[simp] theorem name?_undated : n.undated.name? = n.name? :=
  name?_relabel (f := Label.undated) (fun _ => rfl) n fun _ => rfl

@[simp] theorem firstLeaf?_undated (kind : TokenKind) :
    n.undated.firstLeaf? kind = n.firstLeaf? kind := by
  rw [firstLeaf?, firstLeaf?, leaves_undated]

end Node

/-- A tree without stamps. -/
def Tree.undated (t : Tree) : Tree :=
  { t with label := t.label.undated, children := t.children.map Element.undated, generation := 0 }

namespace Tree

variable (t : Tree)

@[simp] theorem root_undated : t.undated.root = t.root.undated := rfl

@[simp] theorem element_undated : t.undated.element = t.element.undated :=
  (Element.undated_node t.label t.children).symm

@[simp] theorem generation_undated : t.undated.generation = 0 := rfl

@[simp] theorem diagnostics_undated : t.undated.diagnostics = t.diagnostics := by
  rw [diagnostics, diagnostics, element_undated, Element.diagnosticsFrom_undated]

end Tree

end AvroIdl
