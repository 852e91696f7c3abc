import AvroIdl.Tree

/-!
# Places in a tree

A `Node` is a node with the offset at which it starts, a `Leaf` is a token with its offset. A list
of nodes from the inside out, each the parent of the one before, is the way from a place to the
root.
-/

namespace AvroIdl

/-- A token at its place. -/
structure Leaf where
  start : Nat
  token : Token
  deriving DecidableEq, Repr

/-- A node at its place. -/
structure Node where
  start : Nat
  label : Label
  children : List Element
  deriving Repr

/-- A child at its place. -/
inductive Part where
  | leaf (l : Leaf)
  | node (n : Node)
  deriving Repr

namespace Leaf

def kind (l : Leaf) : TokenKind := l.token.kind

def text (l : Leaf) : Bytes := l.token.text

def span (l : Leaf) : Span := ⟨l.start, l.token.text.length⟩

/-- The span of the last part of a dotted name, without quoting backquotes. -/
def simpleNameSpan (l : Leaf) : Span :=
  if 2 ≤ l.text.length && l.text.head? = some 0x60 then ⟨l.start + 1, l.text.length - 2⟩
  else match l.text.lastIndexOf? 0x2e with
    | some dot => ⟨l.start + dot + 1, l.text.length - dot - 1⟩
    | none => l.span

end Leaf

namespace Element

/-- Elements that follow each other, with the offsets at which they start. -/
def placed (start : Nat) : List Element → List Part
  | [] => []
  | leaf t :: rest => .leaf ⟨start, t⟩ :: placed (start + t.text.length) rest
  | node l children :: rest => .node ⟨start, l, children⟩ :: placed (start + l.width) rest

mutual

/-- The leaves of an element that starts at an offset, in the order of the text. -/
def leavesFrom (start : Nat) : Element → List Leaf
  | leaf t => [⟨start, t⟩]
  | node _ children => leavesFromAll start children

/-- The leaves of elements that follow each other. -/
def leavesFromAll (start : Nat) : List Element → List Leaf
  | [] => []
  | e :: rest => e.leavesFrom start ++ leavesFromAll (start + e.width) rest

end

mutual

/-- The way from the innermost node around an offset, through an element that contains the offset,
to the nodes `above` it. -/
def pathInto (offset start : Nat) (above : List Node) : Element → List Node
  | leaf _ => above
  | node l children => pathThrough offset start (⟨start, l, children⟩ :: above) children

/-- The way from the innermost node around an offset, among elements that follow each other. Empty
nodes contain nothing. -/
def pathThrough (offset start : Nat) (above : List Node) : List Element → List Node
  | [] => above
  | leaf t :: rest => pathThrough offset (start + t.text.length) above rest
  | e@(node l _) :: rest =>
    if start ≤ offset && offset < start + l.width then pathInto offset start above e
    else pathThrough offset (start + l.width) above rest

end

mutual

/-- The way from the node with number `id` to the nodes `above` the element. -/
def pathTo? (id : NodeId) (start : Nat) (above : List Node) : Element → Option (List Node)
  | leaf _ => none
  | node l children =>
    let here : Node := ⟨start, l, children⟩
    if l.id = id then some (here :: above) else pathToAmong? id start (here :: above) children

/-- The way from the node with number `id`, if it is in one of the elements. -/
def pathToAmong? (id : NodeId) (start : Nat) (above : List Node) : List Element → Option (List Node)
  | [] => none
  | e :: rest => e.pathTo? id start above <|> pathToAmong? id (start + e.width) above rest

end

mutual

/-- The leaves of an element, each with the nodes around it from the inside out. -/
def leafPaths (start : Nat) (above : List Node) : Element → List (Leaf × List Node)
  | leaf t => [(⟨start, t⟩, above)]
  | node l children => leafPathsAll start (⟨start, l, children⟩ :: above) children

/-- The leaves of elements that follow each other, each with the nodes around it. -/
def leafPathsAll (start : Nat) (above : List Node) : List Element → List (Leaf × List Node)
  | [] => []
  | e :: rest => e.leafPaths start above ++ leafPathsAll (start + e.width) above rest

end

end Element

namespace Node

def kind (n : Node) : NodeKind := n.label.kind

def id (n : Node) : NodeId := n.label.id

def span (n : Node) : Span := ⟨n.start, n.label.width⟩

def hasError (n : Node) : Bool := n.label.hasError

/-- The children at their places. -/
def parts (n : Node) : List Part := Element.placed n.start n.children

/-- The children that are nodes. -/
def childNodes (n : Node) : List Node :=
  n.parts.filterMap fun
    | .node c => some c
    | .leaf _ => none

/-- The children that are leaves. -/
def leaves (n : Node) : List Leaf :=
  n.parts.filterMap fun
    | .leaf l => some l
    | .node _ => none

/-- All leaves below the node, in the order of the text. -/
def allLeaves (n : Node) : List Leaf := Element.leavesFromAll n.start n.children

/-- The text of the node, read off its leaves. -/
def text (n : Node) : Bytes := Element.textOf n.children

/-- The children of one kind. -/
def childrenOf (n : Node) (kind : NodeKind) : List Node := n.childNodes.filter fun c => c.kind = kind

/-- The first child of one kind. -/
def child? (n : Node) (kind : NodeKind) : Option Node := n.childNodes.find? fun c => c.kind = kind

/-- The first child that denotes a type. -/
def typeChild? (n : Node) : Option Node := n.childNodes.find? fun c => c.kind.isType

/-- The leaf that names the node: the declared name of a declaration, a field or an enum symbol, or
the name that a reference refers to. -/
def name? (n : Node) : Option Leaf :=
  n.label.name.bind fun i =>
    match n.parts[i]? with
    | some (.leaf l) => some l
    | _ => none

/-- The first leaf of one kind among the children. -/
def firstLeaf? (n : Node) (kind : TokenKind) : Option Leaf := n.leaves.find? fun l => l.kind = kind

/-- The text of the first keyword among the children, empty when there is none. -/
def keyword (n : Node) : Bytes := ((n.firstLeaf? .keyword).map Leaf.text).getD []

/-- What an error node reports. -/
def diagnostic? (n : Node) : Option Diagnostic :=
  if n.kind = .error then
    n.label.error.map fun e =>
      { code := e.code, severity := .error, message := e.message, span := n.span }
  else none

end Node

namespace Element

mutual

/-- The errors recorded in an element that starts at an offset, in the order of the text. Only
nodes that are marked are looked into. -/
def diagnosticsFrom (start : Nat) : Element → List Diagnostic
  | leaf _ => []
  | node l children =>
    if l.hasError then
      (Node.diagnostic? ⟨start, l, children⟩).toList ++ diagnosticsFromAll start children
    else []

/-- The errors recorded in elements that follow each other. -/
def diagnosticsFromAll (start : Nat) : List Element → List Diagnostic
  | [] => []
  | e :: rest => e.diagnosticsFrom start ++ diagnosticsFromAll (start + e.width) rest

end

end Element

namespace Tree

/-- The root at its place. -/
def root (t : Tree) : Node := ⟨0, t.label, t.children⟩

/-- The lexical and grammatical errors of the text, in its order. -/
def diagnostics (t : Tree) : List Diagnostic := t.element.diagnosticsFrom 0

/-- The innermost node around an offset, followed by the nodes around it from the inside out. The
root is around every offset. -/
def pathAt (t : Tree) (offset : Nat) : List Node :=
  Element.pathThrough offset 0 [t.root] t.children

/-- The node with a number, followed by the nodes around it from the inside out. -/
def pathTo? (t : Tree) (id : NodeId) : Option (List Node) := t.element.pathTo? id 0 []

/-- The leaf that contains an offset, with the nodes around it from the inside out. At the end of
the text this is the last leaf. -/
def leafAt? (t : Tree) (offset : Nat) : Option (Leaf × List Node) :=
  match t.pathAt offset with
  | [] => none
  | path@(n :: _) =>
    let leaves := Element.leafPathsAll n.start path n.children
    match leaves.find? fun (l, _) => l.start ≤ offset && offset < l.start + l.text.length with
    | some found => some found
    | none => if t.text.length ≤ offset then leaves.getLast? else none

end Tree

end AvroIdl
