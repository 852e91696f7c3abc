import AvroIdl.Symbol
import AvroIdl.Json.String

/-!
# The index of an IDL document

Declarations stand in the document or in a protocol of it. A type belongs to the namespace in its
own name, else to the one in its annotation, else to that of the protocol around it.
-/

namespace AvroIdl

namespace Node

/-- The text of an annotation with a name, if it is a string. -/
def annotationText? (n : Node) (name : Bytes) : Option Bytes :=
  (n.childrenOf .annotationDecl).findSome? fun a =>
    if (a.name?.map Leaf.text).getD [] = name then do
      let value ← a.child? .jsonLiteral
      let literal ← value.firstLeaf? .stringLit
      JsonString.decode? literal.text
    else none

/-- The namespace that an annotation of the node gives. -/
def annotatedNamespace? (n : Node) : Option Bytes := n.annotationText? "namespace"

/-- The name of the node without quoting, empty when it has none. -/
def nameText (n : Node) : Bytes := identText ((n.name?.map Leaf.text).getD [])

/-- The namespace of what the node declares. -/
def declaredNamespace (n : Node) (enclosing : Bytes) : Bytes :=
  match Name.qualifier? n.nameText with
  | some space => space
  | none => n.annotatedNamespace?.getD enclosing

/-- The full name of what the node declares. -/
def declaredName (n : Node) (enclosing : Bytes) : Bytes :=
  Name.qualify (n.declaredNamespace enclosing) n.nameText

/-- What a declaration of this kind declares. -/
def symbolKind? (n : Node) : Option SymbolKind :=
  match n.kind with
  | .recordDecl => some .record
  | .errorDecl => some .error
  | .enumDecl => some .enum
  | .fixedDecl => some .fixed
  | _ => none

/-- The import that a statement asks for. The word after `import` says what is imported. -/
def import? (n : Node) : Option Import := do
  let words := n.leaves.filter fun l => l.kind = .keyword
  let word ← words[1]?
  let kind ← ImportKind.all.find? fun k => k.name = word.text
  let literal ← n.name?
  let path := (JsonString.decode? literal.text).getD []
  if path.isEmpty then none
  else some { kind, path, node := n.id, span := n.span, pathSpan := literal.span }

end Node

namespace Table

/-- Adds what a declaration declares. A declaration without a name declares nothing. -/
def declare (t : Table) (n : Node) (enclosing : Bytes) : Table :=
  match n.symbolKind?, n.name? with
  | some kind, some name =>
    let symbols :=
      if kind = .enum then (n.childrenOf .enumSymbol).map Node.nameText else []
    let choice :=
      if kind = .enum then ((n.child? .enumDefault).map Node.nameText).getD [] else []
    t.add {
      name := n.declaredName enclosing
      nameSpace := n.declaredNamespace enclosing
      kind
      uri := t.uri
      generation := t.generation
      decl := some n.id
      span := n.span
      nameSpan := name.simpleNameSpan
      enumSymbols := symbols
      enumDefault := choice }
  | _, _ => t

/-- Adds what a statement declares or imports. -/
def addStatement (t : Table) (n : Node) (enclosing : Bytes) : Table :=
  if n.kind = .importStmt then { t with imports := t.imports ++ n.import?.toList }
  else t.declare n enclosing

/-- Adds a protocol and what stands in it. The namespace of the first protocol is that of the
document. -/
def addProtocol (t : Table) (n : Node) : Table :=
  let space := n.annotatedNamespace?.getD []
  let t := if t.protocol?.isNone then { t with nameSpace := space } else t
  let t := match n.name? with
    | some name =>
      t.add {
        name := Name.qualify space n.nameText
        nameSpace := space
        kind := .protocol
        uri := t.uri
        generation := t.generation
        decl := some n.id
        span := n.span
        nameSpan := name.simpleNameSpan }
    | none => t
  n.childNodes.foldl (fun t c => t.addStatement c space) t

/-- Adds what a statement of the document declares or imports. -/
def addItem (t : Table) (n : Node) : Table :=
  if n.kind = .protocolDecl then t.addProtocol n else t.addStatement n t.nameSpace

end Table

namespace Element

mutual

/-- The references in an element that starts at an offset, in the order of the text. -/
def references (start : Nat) (space : Bytes) (errorsOnly : Bool) : Element → List Reference
  | leaf _ => []
  | node l children =>
    let n : Node := ⟨start, l, children⟩
    match l.kind with
    | .protocolDecl => referencesAmong start (n.annotatedNamespace?.getD []) false children
    | .recordDecl | .errorDecl =>
      let space := if n.name?.isSome then n.declaredNamespace space else space
      referencesAmong start space false children
    | .throwsClause => referencesAmong start space true children
    | .typeRef =>
      n.name?.toList.map fun name =>
        { name := identText name.text, nameSpace := space, node := l.id, span := name.span,
          nameSpan := name.simpleNameSpan, errorsOnly }
    | .annotationDecl | .jsonObject | .jsonArray | .jsonLiteral => []
    | _ => referencesAmong start space errorsOnly children

/-- The references in elements that follow each other. -/
def referencesAmong (start : Nat) (space : Bytes) (errorsOnly : Bool) :
    List Element → List Reference
  | [] => []
  | e :: rest =>
    e.references start space errorsOnly ++ referencesAmong (start + e.width) space errorsOnly rest

end

end Element

namespace Table

/-- The table of an IDL document. -/
def ofTree (serial : Nat) (uri : Bytes) (tree : Tree) : Table :=
  let root := tree.root
  let space := (root.childrenOf .namespaceDecl).findSome? fun n =>
    n.name?.map fun l => identText l.text
  let t : Table :=
    { serial, uri, generation := tree.generation, nameSpace := space.getD [], tree := some tree }
  let t := root.childNodes.foldl addItem t
  let t := { t with references := Element.referencesAmong 0 t.nameSpace false tree.children }
  { t with diagnostics := t.duplicates }

end Table

end AvroIdl
