import AvroIdl.Name
import AvroIdl.Tree.Node

/-!
# Symbols

What one document declares, imports and refers to: the entries of its symbol table.
-/

namespace AvroIdl

/-- What a symbol declares. -/
inductive SymbolKind where
  | record
  | error
  | enum
  | fixed
  | protocol
  deriving DecidableEq, Repr

namespace SymbolKind

/-- All kinds, in the order of their numbers, which start at one. -/
def all : List SymbolKind := [record, error, enum, fixed, protocol]

def name : SymbolKind → Bytes
  | record => "record"
  | error => "error"
  | enum => "enum"
  | fixed => "fixed"
  | protocol => "protocol"

end SymbolKind

/-- The declaration of a named type or of a protocol. -/
structure Symbol where
  /-- The full name. -/
  name : Bytes
  nameSpace : Bytes
  kind : SymbolKind
  uri : Bytes
  generation : UInt64
  /-- The declaring node, if the symbol is declared in IDL. -/
  decl : Option NodeId
  span : Span
  /-- The span of the simple name within the declared name. -/
  nameSpan : Span
  enumSymbols : List Bytes := []
  enumDefault : Bytes := []
  deriving DecidableEq, Repr

namespace Symbol

def simpleName (s : Symbol) : Bytes := Name.simple s.name

/-- Whether the symbol was read from a JSON schema or protocol. -/
def fromJson (s : Symbol) : Bool := s.decl.isNone

def isProtocol (s : Symbol) : Bool := s.kind = .protocol

/-- The kind and the full name. -/
def render (s : Symbol) : Bytes := Bytes.join [s.kind.name, " ", s.name]

end Symbol

/-- The kind of document that an import names. -/
inductive ImportKind where
  | idl
  | protocol
  | schema
  deriving DecidableEq, Repr

namespace ImportKind

/-- All kinds, in the order of their numbers, which start at one. -/
def all : List ImportKind := [idl, protocol, schema]

def name : ImportKind → Bytes
  | idl => "idl"
  | protocol => "protocol"
  | schema => "schema"

end ImportKind

/-- An import statement. -/
structure Import where
  kind : ImportKind
  path : Bytes
  node : NodeId
  span : Span
  pathSpan : Span
  deriving DecidableEq, Repr

/-- A use of a type name. -/
structure Reference where
  /-- The name as written, without quoting. -/
  name : Bytes
  /-- The namespace that a simple name is relative to. -/
  nameSpace : Bytes
  node : NodeId
  span : Span
  nameSpan : Span
  /-- Whether only error types may be meant. -/
  errorsOnly : Bool
  deriving DecidableEq, Repr

def Reference.isQualified (r : Reference) : Bool := Name.isQualified r.name

/-- Symbols by name. The symbols of one name are in the order in which they were added. -/
structure NameIndex where
  entries : List (Bytes × List Symbol) := []
  deriving DecidableEq, Repr

namespace NameIndex

/-- The symbols with a name. -/
def get (i : NameIndex) (name : Bytes) : List Symbol := (i.entries.lookup name).getD []

/-- Adds a symbol after those with the same name. -/
def insert (i : NameIndex) (name : Bytes) (s : Symbol) : NameIndex :=
  { entries :=
      if i.entries.any (·.1 = name) then
        i.entries.map fun e => if e.1 = name then (e.1, e.2 ++ [s]) else e
      else i.entries ++ [(name, [s])] }

end NameIndex

/-- What one reading of a document declares, imports and refers to. -/
structure Table where
  /-- Tells readings of documents apart. -/
  serial : Nat
  uri : Bytes
  generation : UInt64
  /-- The default namespace of the document. -/
  nameSpace : Bytes := []
  /-- The tree of an IDL document. -/
  tree : Option Tree := none
  /-- In the order of their declarations. -/
  symbols : List Symbol := []
  imports : List Import := []
  references : List Reference := []
  diagnostics : List Diagnostic := []
  /-- The named types by full name. -/
  byName : NameIndex := {}
  /-- The named types by simple name. -/
  bySimple : NameIndex := {}
  deriving Repr

namespace Table

/-- Adds a symbol. Protocols are not found by name. -/
def add (t : Table) (s : Symbol) : Table :=
  if s.isProtocol then { t with symbols := t.symbols ++ [s] }
  else
    { t with
      symbols := t.symbols ++ [s]
      byName := t.byName.insert s.name s
      bySimple := t.bySimple.insert s.simpleName s }

/-- The first protocol of the document. -/
def protocol? (t : Table) : Option Symbol := t.symbols.find? Symbol.isProtocol

/-- The named types that the document declares, in order. -/
def types (t : Table) : List Symbol := t.symbols.filter fun s => !s.isProtocol

/-- The types with a full name. -/
def lookup (t : Table) (fullName : Bytes) : List Symbol := t.byName.get fullName

/-- The types with a simple name. -/
def lookupSimple (t : Table) (simpleName : Bytes) : List Symbol := t.bySimple.get simpleName

/-- The symbol whose name touches an offset. -/
def symbolAt? (t : Table) (offset : Nat) : Option Symbol :=
  t.symbols.find? fun s =>
    !s.fromJson && s.nameSpan.start ≤ offset && offset ≤ s.nameSpan.stop

/-- The reference that touches an offset. -/
def referenceAt? (t : Table) (offset : Nat) : Option Reference :=
  t.references.find? fun r => r.span.start ≤ offset && offset ≤ r.span.stop

/-- The problem of a name that is declared more than once, at one of its declarations. -/
def duplicateDeclaration (s : Symbol) (others : List Symbol) : Diagnostic :=
  { code := 3000
    severity := .error
    message := Bytes.join ["Duplicate declaration of ", s.name]
    span := s.nameSpan
    uri := s.uri
    related := others.map fun o =>
      { uri := o.uri, span := o.nameSpan, message := Bytes.join [o.render, " is also declared here"] } }

/-- The problems of names that are declared more than once: one at each declaration. -/
def duplicates (t : Table) : List Diagnostic :=
  t.types.filterMap fun s =>
    let others := (t.lookup s.name).filter (· ≠ s)
    if others.isEmpty then none else some (duplicateDeclaration s others)

end Table

end AvroIdl
