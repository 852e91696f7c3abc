import AvroIdl.Symbol

/-!
# Scopes

What is visible from a document: its own table, and the tables of the documents that it imports,
directly or through others.
-/

namespace AvroIdl

/-- The tables visible from one document. -/
structure Scope where
  own : Table
  imports : List Table := []
  /-- Whether some import is still being loaded. -/
  pending : Bool := false
  deriving Repr

namespace Scope

/-- All tables, the own one first. -/
def visible (s : Scope) : List Table := s.own :: s.imports

/-- The imported tables, each once. -/
def distinctImports (s : Scope) : List Table :=
  s.imports.eraseDupsBy fun a b => a.serial == b.serial

/-- The URI and generation of a table. -/
def stampOf (t : Table) : Bytes :=
  Bytes.join [t.uri, "@", Bytes.ofNat t.generation.toNat]

/-- A text that changes with the visible documents and their generations. -/
def stamp (s : Scope) : Bytes :=
  Bytes.join [Bytes.joinWith ";" (s.visible.map stampOf), if s.pending then ";pending" else []]

end Scope

end AvroIdl
