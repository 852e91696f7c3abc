import AvroIdl.Check.Problem
import AvroIdl.Json.String
import AvroIdl.Resolution
import AvroIdl.Text.Integer

/-!
# Default values

Whether the JSON value after a field is a value of the field's type. Types that cannot be resolved
accept every value.
-/

namespace AvroIdl

/-- A type as it is written. -/
inductive TypeExpr where
  /-- A reference at a node, with its name. -/
  | ref (node : NodeId) (name : Option Bytes)
  | nullable (type : TypeExpr)
  | array (items : TypeExpr)
  | map (values : TypeExpr)
  /-- A union with its first branch. -/
  | union (first : Option TypeExpr)
  | decimal
  | other (kind : NodeKind)
  deriving Repr

/-- A JSON value as it is written in a document. -/
inductive JsonTerm where
  | literal (kind : TokenKind) (text : Bytes)
  | array (items : List JsonTerm)
  | object (values : List JsonTerm)
  deriving Repr

namespace NodeKind

/-- Whether nodes of this kind are JSON values. -/
def isJson : NodeKind → Bool
  | jsonObject | jsonArray | jsonLiteral => true
  | _ => false

end NodeKind

namespace Element

/-- Whether an element is a node of a kind that satisfies `p`. -/
def hasKind (p : NodeKind → Bool) : Element → Bool
  | leaf _ => false
  | node l _ => p l.kind

mutual

/-- The type that an element denotes. -/
def typeExpr : Element → TypeExpr
  | leaf _ => .other .invalid
  | node l children =>
    match l.kind with
    | .typeRef => .ref l.id ((Node.name? ⟨0, l, children⟩).map fun n => identText n.text)
    | .nullableType => .nullable ((typeExprAmong children).getD (.other .invalid))
    | .arrayType => .array ((typeExprAmong children).getD (.other .invalid))
    | .mapType => .map ((typeExprAmong children).getD (.other .invalid))
    | .unionType => .union (typeExprAmong children)
    | .decimalType => .decimal
    | kind => .other kind

/-- The first type among some elements. -/
def typeExprAmong : List Element → Option TypeExpr
  | [] => none
  | e :: rest => if e.hasKind NodeKind.isType then some e.typeExpr else typeExprAmong rest

end

/-- Whether leaves of this kind are JSON values. -/
def isLiteralKind (kind : TokenKind) : Bool :=
  kind = .stringLit || kind = .intLit || kind = .floatLit || kind = .boolLit || kind = .keyword

/-- The literal among the children of a node. -/
def literalAmong : List Element → JsonTerm
  | [] => .literal .eof []
  | leaf t :: rest => if isLiteralKind t.kind then .literal t.kind t.text else literalAmong rest
  | node _ _ :: rest => literalAmong rest

mutual

/-- The JSON value that an element denotes. -/
def jsonTerm : Element → JsonTerm
  | leaf _ => .literal .eof []
  | node l children =>
    match l.kind with
    | .jsonObject => .object (memberTerms children)
    | .jsonArray => .array (itemTerms children)
    | .jsonLiteral => literalAmong children
    | _ => .literal .eof []

/-- The values of the nodes among some elements. -/
def itemTerms : List Element → List JsonTerm
  | [] => []
  | e :: rest => if e.hasKind fun _ => true then e.jsonTerm :: itemTerms rest else itemTerms rest

/-- The values of the members among some elements. -/
def memberTerms : List Element → List JsonTerm
  | [] => []
  | leaf _ :: rest => memberTerms rest
  | node l children :: rest =>
    if l.kind = .jsonMember then (firstTerm? children).toList ++ memberTerms rest
    else memberTerms rest

/-- The first JSON value among some elements. -/
def firstTerm? : List Element → Option JsonTerm
  | [] => none
  | e :: rest => if e.hasKind NodeKind.isJson then some e.jsonTerm else firstTerm? rest

end

end Element

namespace TypeExpr

/-- A type as messages show it. -/
def render : TypeExpr → Bytes
  | ref _ (some name) => name
  | ref _ none => NodeKind.typeRef.name
  | nullable t => Bytes.join [t.render, "?"]
  | array t => Bytes.join ["array<", t.render, ">"]
  | map t => Bytes.join ["map<", t.render, ">"]
  | union _ => "union"
  | decimal => "decimal"
  | other kind => kind.name

end TypeExpr

namespace JsonTerm

/-- A value as messages show it. -/
def render : JsonTerm → Bytes
  | literal _ text => text
  | array _ => "array"
  | object _ => "object"

/-- Whether a value is a literal of a kind. The keyword is `null`. -/
def isLiteral (v : JsonTerm) (kind : TokenKind) : Bool :=
  match v with
  | literal k _ => k = kind
  | _ => false

/-- Whether a value is an integer literal that fits into a signed word. Only decimal digits after
an optional sign do. -/
def isInteger (bits : Nat) : JsonTerm → Bool
  | literal .intLit text => (Bytes.integer? text).any (fitsSigned bits)
  | _ => false

/-- Whether a value is one of the primitive type that others are encoded as. -/
def fitsPrimitive (v : JsonTerm) (primitive : Bytes) : Bool :=
  if primitive = Bytes.ofString "null" then v.isLiteral .keyword
  else if primitive = Bytes.ofString "boolean" then v.isLiteral .boolLit
  else if primitive = Bytes.ofString "int" then v.isInteger 32
  else if primitive = Bytes.ofString "long" then v.isInteger 64
  else if primitive = Bytes.ofString "float" || primitive = Bytes.ofString "double" then
    v.isLiteral .intLit || v.isLiteral .floatLit
  else if primitive = Bytes.ofString "bytes" || primitive = Bytes.ofString "string" then
    v.isLiteral .stringLit
  else true

/-- Whether a value is one of a named type. -/
def fitsSymbol (v : JsonTerm) (s : Symbol) : Bool :=
  match s.kind, v with
  | .record, object _ | .error, object _ => true
  | .record, _ | .error, _ => false
  | .fixed, v => v.isLiteral .stringLit
  | .enum, literal .stringLit text =>
    s.enumSymbols.isEmpty || s.enumSymbols.contains ((JsonString.decode? text).getD [])
  | .enum, _ => false
  | .protocol, _ => true

/-- Whether a value is one of what a reference means. -/
def fitsResolution (v : JsonTerm) : Resolution → Bool
  | .primitive name => v.fitsPrimitive ((Primitive.underlying? name).getD [])
  | .resolved s => v.fitsSymbol s
  | .unresolved | .ambiguous _ => true

end JsonTerm

/-- What the reference at a node means, for the nodes that are references. -/
abbrev Meanings := List (NodeId × Resolution)

namespace TypeExpr

/-- Whether a value can be the default of a type. The default of a union is one of its first
branch. -/
def accepts (meanings : Meanings) : TypeExpr → JsonTerm → Bool
  | nullable t, v => v.isLiteral .keyword || t.accepts meanings v
  | union none, _ => true
  | union (some t), v => t.accepts meanings v
  | array t, .array items => items.all (t.accepts meanings)
  | array _, _ => false
  | map t, .object values => values.all (t.accepts meanings)
  | map _, _ => false
  | decimal, v => v.isLiteral .stringLit
  | ref node _, v => (meanings.lookup node).all v.fitsResolution
  | other _, _ => true

end TypeExpr

namespace Node

/-- The first child that is a JSON value. -/
def jsonChild? (n : Node) : Option Node := n.childNodes.find? fun c => c.kind.isJson

/-- The problems of the default values of a field or parameter. -/
def checkDefaults (n : Node) (meanings : Meanings) : List Diagnostic :=
  match n.typeChild? with
  | none => []
  | some typeNode =>
    if typeNode.hasError then []
    else
      let type := Element.typeExpr (.node typeNode.label typeNode.children)
      (n.childrenOf .variableDecl).filterMap fun variableNode => do
        let valueNode ← variableNode.jsonChild?
        let value := Element.jsonTerm (.node valueNode.label valueNode.children)
        if valueNode.hasError || type.accepts meanings value then none
        else some (Problem.invalidDefault type.render value.render valueNode.span)

end Node

end AvroIdl
