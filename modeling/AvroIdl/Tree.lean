import AvroIdl.Diagnostic
import AvroIdl.SyntaxError

/-!
# Syntax trees

A tree holds every token of its text, so that the text can be read back off its leaves. Nodes are
stamped with the generation in which they were made and with a number of their own, and carry their
width and whether there is an error below them. Positions are not stored: a `Node` is an element
together with the offset at which it starts.
-/

namespace AvroIdl

/-- The grammatical role of a node. -/
inductive NodeKind where
  | invalid
  | document
  | error
  | protocolDecl
  | namespaceDecl
  | schemaDecl
  | importStmt
  | recordDecl
  | errorDecl
  | fieldDecl
  | variableDecl
  | enumDecl
  | enumSymbol
  | enumDefault
  | fixedDecl
  | messageDecl
  | formalParam
  | throwsClause
  | annotationDecl
  | typeRef
  | voidType
  | nullableType
  | arrayType
  | mapType
  | unionType
  | decimalType
  | jsonObject
  | jsonMember
  | jsonArray
  | jsonLiteral
  deriving DecidableEq, Repr

namespace NodeKind

/-- All kinds, in the order of their numbers. -/
def all : List NodeKind :=
  [invalid, document, error, protocolDecl, namespaceDecl, schemaDecl, importStmt, recordDecl,
    errorDecl, fieldDecl, variableDecl, enumDecl, enumSymbol, enumDefault, fixedDecl, messageDecl,
    formalParam, throwsClause, annotationDecl, typeRef, voidType, nullableType, arrayType, mapType,
    unionType, decimalType, jsonObject, jsonMember, jsonArray, jsonLiteral]

def name : NodeKind → Bytes
  | invalid => "Invalid"
  | document => "Document"
  | error => "Error"
  | protocolDecl => "ProtocolDecl"
  | namespaceDecl => "NamespaceDecl"
  | schemaDecl => "SchemaDecl"
  | importStmt => "ImportStmt"
  | recordDecl => "RecordDecl"
  | errorDecl => "ErrorDecl"
  | fieldDecl => "FieldDecl"
  | variableDecl => "Variable"
  | enumDecl => "EnumDecl"
  | enumSymbol => "EnumSymbol"
  | enumDefault => "EnumDefault"
  | fixedDecl => "FixedDecl"
  | messageDecl => "MessageDecl"
  | formalParam => "FormalParam"
  | throwsClause => "ThrowsClause"
  | annotationDecl => "Annotation"
  | typeRef => "TypeRef"
  | voidType => "VoidType"
  | nullableType => "NullableType"
  | arrayType => "ArrayType"
  | mapType => "MapType"
  | unionType => "UnionType"
  | decimalType => "DecimalType"
  | jsonObject => "JsonObject"
  | jsonMember => "JsonMember"
  | jsonArray => "JsonArray"
  | jsonLiteral => "JsonLiteral"

/-- Whether nodes of this kind declare a named type. -/
def isNamedDecl : NodeKind → Bool
  | protocolDecl | recordDecl | errorDecl | enumDecl | fixedDecl => true
  | _ => false

/-- Whether nodes of this kind denote a schema type. -/
def isType : NodeKind → Bool
  | typeRef | voidType | nullableType | arrayType | mapType | unionType | decimalType => true
  | _ => false

end NodeKind

/-- The number of a node. No two nodes made in one arena share it. -/
abbrev NodeId := Nat

/-- What a node is, apart from its children. -/
structure Label where
  id : NodeId
  kind : NodeKind
  /-- The generation in which the node was made. -/
  generation : UInt64
  /-- The number of bytes below the node. -/
  width : Nat
  /-- Whether the node is an error node, or has one below it. -/
  hasError : Bool
  /-- The place of the naming leaf among the children. -/
  name : Option Nat
  /-- What an error node reports. -/
  error : Option SyntaxError
  deriving DecidableEq, Repr

/-- A part of a tree: a token, or a node with its children. -/
inductive Element where
  | leaf (token : Token)
  | node (label : Label) (children : List Element)
  deriving Repr

namespace Element

/-- The number of bytes of an element. -/
def width : Element → Nat
  | leaf t => t.text.length
  | node l _ => l.width

/-- Whether an element is marked as holding an error. -/
def hasError : Element → Bool
  | leaf t => t.kind = .error
  | node l _ => l.hasError

mutual

/-- The text of an element, read off its leaves. -/
def text : Element → Bytes
  | leaf t => t.text
  | node _ children => textOf children

/-- The text of elements that follow each other. -/
def textOf : List Element → Bytes
  | [] => []
  | e :: rest => e.text ++ textOf rest

end

mutual

/-- The number of nodes in an element. -/
def nodeCount : Element → Nat
  | leaf _ => 0
  | node _ children => nodeCountOf children + 1

/-- The number of nodes in several elements. -/
def nodeCountOf : List Element → Nat
  | [] => 0
  | e :: rest => e.nodeCount + nodeCountOf rest

end

end Element

/-- How many nodes and leaves have been made so far. Each new node takes the next number. -/
structure Arena where
  nodes : Nat := 0
  leaves : Nat := 0
  deriving DecidableEq, Repr

namespace Arena

/-- The number of nodes and leaves made. -/
def size (a : Arena) : Nat := a.nodes + a.leaves

/-- The number of node places, one of which is never used. -/
def slots (a : Arena) : Nat := a.nodes + 1

/-- One more leaf. -/
def addLeaf (a : Arena) : Arena := { a with leaves := a.leaves + 1 }

/-- One more node. -/
def addNode (a : Arena) : Arena := { a with nodes := a.nodes + 1 }

/-- The label of the next node, when it has the given children. Its width is theirs together, and
it is marked if one of them is. -/
def nextLabel (a : Arena) (generation : UInt64) (kind : NodeKind) (name : Option Nat)
    (error : Option SyntaxError) (children : List Element) : Label :=
  { id := a.nodes + 1
    kind
    generation
    width := children.foldr (fun e n => e.width + n) 0
    hasError := kind = .error || children.any Element.hasError
    name
    error }

end Arena

/-- One generation of a document's tree. The root is a node of kind `document`. -/
structure Tree where
  arena : Arena
  label : Label
  children : List Element
  text : Bytes
  generation : UInt64
  deriving Repr

namespace Tree

/-- The root as an element. -/
def element (t : Tree) : Element := .node t.label t.children

/-- The number of nodes in the tree. -/
def reachable (t : Tree) : Nat := t.element.nodeCount

end Tree

end AvroIdl
