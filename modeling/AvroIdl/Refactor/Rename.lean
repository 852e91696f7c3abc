import AvroIdl.Refactor.Error
import AvroIdl.Refactor.TextEdit
import AvroIdl.Token.Lexer

/-!
# Renaming a type

The name of a declaration is replaced together with that of all references which mean it.
References that might mean it, and types that have the new name already, are warned of.
-/

namespace AvroIdl

/-- The edits of a renaming, and what to look at before they are made. -/
structure RenameResult where
  edits : List TextEdit
  warnings : List Diagnostic
  deriving DecidableEq, Repr

/-- What keeps a text from being the new name of a type. -/
def nameProblem? (name : Bytes) : Option NameProblem :=
  let divides (c : UInt8) : Bool := c = 0x2e || c = 0x60 || c = 0x2d
  if name.isEmpty then some .empty
  else if name.any divides then some .notSimple
  else if (Keyword.ofText? name).isSome || Primitive.isPrimitive name then some .reserved
  else if (Token.all name).all fun t =>
      (t.kind = .ident || t.kind = .keyword) && t.text.length = name.length then none
  else some .notIdentifier

namespace Usage

/-- The edit that gives a reference a new name. -/
def renamed (u : Usage) (newName : Bytes) : TextEdit :=
  { uri := u.uri, span := u.reference.nameSpan, newText := newName }

/-- The warning of a reference that keeps its name. -/
def notRenamed (u : Usage) (why : Bytes) : Diagnostic :=
  { code := 4100
    severity := .warning
    message := Bytes.join ["Reference ", u.reference.name, " is ", why, " and is not renamed"]
    span := u.reference.span
    uri := u.uri }

/-- The warning of a reference that may mean a symbol, but is not known to. -/
def doubt? (u : Usage) (symbol : Symbol) : Option Diagnostic :=
  match u.result with
  | .ambiguous candidates =>
    if candidates.any (·.same symbol) then some (u.notRenamed "ambiguous") else none
  | .unresolved =>
    if Name.simple u.reference.name = symbol.simpleName then some (u.notRenamed "unresolved")
    else none
  | _ => none

end Usage

namespace Snapshot

/-- The warnings of types that have a full name already. -/
def nameTaken (s : Snapshot) (fullName : Bytes) : List Diagnostic :=
  (s.lookup fullName).map fun other =>
    { code := 4101
      severity := .warning
      message := Bytes.join [fullName, " is already declared"]
      span := other.nameSpan
      uri := other.uri }

/-- The edits that give a type a new simple name. -/
def rename (s : Snapshot) (c : Cache) (symbol : Symbol) (newName : Bytes) :
    Cache × Except RefactorError RenameResult :=
  match nameProblem? newName with
  | some problem => (c, .error (.invalidName newName problem))
  | none =>
    if symbol.fromJson then (c, .error (.readOnly symbol))
    else if (s.document? symbol.uri).isNone then (c, .error (.unknownDocument symbol.uri))
    else
      let (c, usages) := s.references c
      let declaration : TextEdit :=
        { uri := symbol.uri, span := symbol.nameSpan, newText := newName }
      let meant := usages.filter (·.means symbol)
      let fullName :=
        if symbol.nameSpace.isEmpty then newName else symbol.nameSpace ++ Name.dot :: newName
      let taken := if fullName = symbol.name then [] else s.nameTaken fullName
      (c, .ok
        { edits := TextEdit.sort (declaration :: meant.map (·.renamed newName))
          warnings := usages.filterMap (·.doubt? symbol) ++ taken })

end Snapshot

end AvroIdl
