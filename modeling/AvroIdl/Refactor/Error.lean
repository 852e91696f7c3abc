import AvroIdl.Snapshot
import AvroIdl.Text.Quoted

/-!
# Refused refactorings
-/

namespace AvroIdl

/-- Why a text cannot be the new name of a type. -/
inductive NameProblem where
  | empty
  /-- It has several parts or needs quoting. -/
  | notSimple
  /-- It is a keyword or a built-in type. -/
  | reserved
  | notIdentifier
  deriving DecidableEq, Repr

def NameProblem.message : NameProblem → Bytes
  | .empty => "empty"
  | .notSimple => "must be a simple name"
  | .reserved => "reserved word"
  | .notIdentifier => "not an identifier"

/-- Why a refactoring is refused. -/
inductive RefactorError where
  | invalidName (name : Bytes) (problem : NameProblem)
  /-- JSON documents are never changed. -/
  | readOnly (symbol : Symbol)
  /-- The document of the symbol is not loaded. -/
  | unknownDocument (uri : Bytes)
  deriving DecidableEq, Repr

def RefactorError.message : RefactorError → Bytes
  | .invalidName name problem =>
    Bytes.join ["invalid name ", name.quoted, ": ", problem.message]
  | .readOnly s => Bytes.join ["symbol is declared in a JSON file: ", s.name, " in ", s.uri]
  | .unknownDocument uri => (DocumentError.unknown uri).message

end AvroIdl
