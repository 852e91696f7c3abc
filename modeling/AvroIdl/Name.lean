import AvroIdl.Text.Bytes

/-!
# Names

A full name is a simple name after a namespace and a dot. The namespace can be missing.
-/

namespace AvroIdl

namespace Name

/-- The byte between a namespace and a simple name. -/
def dot : UInt8 := 0x2e

/-- Whether a name is written with a namespace. -/
def isQualified (name : Bytes) : Bool := name.contains dot

/-- The part of a name after its last dot. -/
def simple (name : Bytes) : Bytes :=
  match name.lastIndexOf? dot with
  | some i => name.drop (i + 1)
  | none => name

/-- The part of a name before its last dot, if it has one. -/
def qualifier? (name : Bytes) : Option Bytes := (name.lastIndexOf? dot).map name.take

/-- A name within a namespace. A name with a dot stays as it is. -/
def qualify (space name : Bytes) : Bytes :=
  if space.isEmpty || isQualified name then name else space ++ dot :: name

end Name

end AvroIdl
