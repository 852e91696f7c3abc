import AvroIdl.Scope

/-!
# Resolution

What a reference means in a scope. Built-in types come first. Then the document's own types and
then the imported ones are searched for each full name that the reference can stand for, and at
last by simple name. The first search that finds anything decides, and several finds are ambiguous.
-/

namespace AvroIdl

namespace Primitive

/-- The built-in types in alphabetical order, each with the type that it is encoded as. -/
def all : List (Bytes × Bytes) :=
  [("boolean", "boolean"), ("bytes", "bytes"), ("date", "int"), ("double", "double"),
    ("float", "float"), ("int", "int"), ("local_timestamp_ms", "long"), ("long", "long"),
    ("null", "null"), ("string", "string"), ("time_ms", "int"), ("timestamp_ms", "long"),
    ("uuid", "string")]

def names : List Bytes := all.map (·.1)

/-- The type that a built-in type is encoded as. -/
def underlying? (name : Bytes) : Option Bytes := all.lookup name

def isPrimitive (name : Bytes) : Bool := (underlying? name).isSome

end Primitive

/-- What a reference means. -/
inductive Resolution where
  | unresolved
  | primitive (name : Bytes)
  | resolved (symbol : Symbol)
  | ambiguous (candidates : List Symbol)
  deriving DecidableEq, Repr

namespace Resolution

/-- The names of the outcomes, in the order of their numbers. -/
def statusNames : List Bytes := ["unresolved", "primitive", "resolved", "ambiguous"]

def status : Resolution → Bytes
  | unresolved => "unresolved"
  | primitive _ => "primitive"
  | resolved _ => "resolved"
  | ambiguous _ => "ambiguous"

/-- What a search that found these symbols decides, if anything. -/
def pick? : List Symbol → Option Resolution
  | [] => none
  | [s] => some (resolved s)
  | found => some (ambiguous found)

end Resolution

namespace Reference

/-- The full names that a reference can stand for, in the order in which they are tried. -/
def fullNames (r : Reference) : List Bytes :=
  if r.isQualified || r.nameSpace.isEmpty then [r.name]
  else [r.nameSpace ++ Name.dot :: r.name, r.name]

/-- What a search of the own table and then of the imported ones decides. -/
def search? (scope : Scope) (find : Table → List Symbol) : Option Resolution :=
  Resolution.pick? (find scope.own) <|> Resolution.pick? (scope.distinctImports.flatMap find)

/-- What a reference means in a scope. -/
def resolve (r : Reference) (scope : Scope) : Resolution :=
  if !r.isQualified && Primitive.isPrimitive r.name then .primitive r.name
  else
    let byName := r.fullNames.findSome? fun n => search? scope (·.lookup n)
    let bySimple := if r.isQualified then none else search? scope (·.lookupSimple r.name)
    (byName <|> bySimple).getD .unresolved

end Reference

namespace Scope

/-- What the references of the document mean, in order. -/
def resolveAll (s : Scope) : List Resolution := s.own.references.map (·.resolve s)

end Scope

end AvroIdl
