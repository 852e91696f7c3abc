import AvroIdl.Parser.Run
import AvroIdl.Path
import AvroIdl.Symbol.Index
import AvroIdl.Symbol.Schema

/-!
# Documents

One reading of a file: its text and its table.
-/

namespace AvroIdl

/-- The format of a document. -/
inductive DocumentKind where
  | idl
  | protocol
  | schema
  deriving DecidableEq, Repr

namespace DocumentKind

/-- All kinds, in the order of their numbers, which start at one. -/
def all : List DocumentKind := [idl, protocol, schema]

def name : DocumentKind → Bytes
  | idl => "idl"
  | protocol => "protocol"
  | schema => "schema"

/-- The name of the kind with a number. -/
def nameOfNumber (n : Nat) : Bytes :=
  if n = 0 then "unknown" else (all[n - 1]?).elim "unknown" name

/-- The kind of a document by the extension of its URI. -/
def ofUri (uri : Bytes) : DocumentKind :=
  let extension := Path.extension uri
  if extension = Bytes.ofString ".avpr" then protocol
  else if extension = Bytes.ofString ".avsc" then schema
  else idl

/-- The kind of a document that is imported. JSON files may be imported as IDL. -/
def ofImport (kind : ImportKind) (uri : Bytes) : DocumentKind :=
  match kind with
  | .protocol => protocol
  | .schema => schema
  | .idl => ofUri uri

end DocumentKind

/-- One generation of a document. -/
structure Document where
  kind : DocumentKind
  text : Bytes
  table : Table
  deriving Repr

namespace Document

def uri (d : Document) : Bytes := d.table.uri

def generation (d : Document) : UInt64 := d.table.generation

/-- The tree of an IDL document. -/
def tree? (d : Document) : Option Tree := d.table.tree

/-- Tells readings of documents apart. -/
def serial (d : Document) : Nat := d.table.serial

def imports (d : Document) : List Import := d.table.imports

/-- Reads a document. -/
def read (serial : Nat) (uri : Bytes) (kind : DocumentKind) (text : Bytes) (opts : ParseOptions) :
    Document :=
  let table :=
    match kind with
    | .idl => Table.ofTree serial uri (Tree.parse text opts)
    | _ => Table.ofJsonText serial uri text opts.generation
  { kind, text, table }

/-- The document after an edit of its tree. -/
def ofTree (serial : Nat) (uri : Bytes) (kind : DocumentKind) (tree : Tree) : Document :=
  { kind, text := tree.text, table := Table.ofTree serial uri tree }

end Document

end AvroIdl
