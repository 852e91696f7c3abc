import AvroIdl.Check.Problem

/-!
# Checks of declarations

Names that occur twice in a record, an enum or a message, defaults of enums, and results of one-way
messages.
-/

namespace AvroIdl

/-- The leaves whose name occurs more than once. -/
def repeatedNames (names : List Leaf) : List (Bytes × Span) :=
  (names.filter fun l =>
    1 < names.countP fun o => identText o.text = identText l.text).map fun l =>
      (identText l.text, l.span)

namespace Node

/-- The name of a node without quoting, empty when it has none. -/
def plainName (n : Node) : Bytes := ((n.name?.map fun l => identText l.text)).getD []

/-- The problems of the fields of a record. -/
def checkFields (n : Node) : List Diagnostic :=
  let names := (n.childrenOf .fieldDecl).flatMap fun f =>
    (f.childrenOf .variableDecl).filterMap Node.name?
  (repeatedNames names).map fun (name, span) => Problem.duplicateField name span

/-- The problems of the symbols of an enum and of its default. -/
def checkEnum (n : Node) : List Diagnostic :=
  let names := (n.childrenOf .enumSymbol).filterMap Node.name?
  let repeated := (repeatedNames names).map fun (name, span) => Problem.duplicateEnumSymbol name span
  let unknown := do
    let choice ← n.child? .enumDefault
    let leaf ← choice.name?
    let symbol := identText leaf.text
    if names.any fun l => identText l.text = symbol then none
    else some (Problem.unknownEnumDefault symbol n.plainName leaf.span)
  repeated ++ unknown.toList

/-- The problems of the parameters and of the result of a message. -/
def checkMessage (n : Node) : List Diagnostic :=
  let names := (n.childrenOf .formalParam).filterMap fun p =>
    (p.child? .variableDecl).bind Node.name?
  let repeated := (repeatedNames names).map fun (name, span) => Problem.duplicateField name span
  let oneway := n.leaves.any fun l => l.token.is .oneway
  let result := do
    let result ← n.typeChild?
    if oneway && result.kind ≠ NodeKind.voidType then some (Problem.onewayResult n.plainName result.span)
    else none
  repeated ++ result.toList

end Node

end AvroIdl
