import AvroIdl.Project.Link
import AvroIdl.Resolution.Cache

/-!
# Snapshots

All loaded documents at one point in time, with the links between them, and what can be asked of
them. Questions about references go through a cache, which is handed on.
-/

namespace AvroIdl

/-- The loaded documents at one point in time. -/
structure Snapshot where
  /-- Grows with each document that is published and with each import that is loaded. -/
  version : Nat := 0
  /-- At most one for each URI. -/
  docs : List Document := []
  /-- The URIs of the documents that are open in an editor. -/
  opened : List Bytes := []
  links : Links := []
  deriving Repr

/-- Why a question about a document has no answer. -/
inductive DocumentError where
  /-- The document is not loaded. -/
  | unknown (uri : Bytes)
  /-- The document changed while it was analyzed. -/
  | stale
  /-- The question was withdrawn. -/
  | canceled
  deriving DecidableEq, Repr

def DocumentError.message : DocumentError → Bytes
  | .unknown uri => Bytes.join ["unknown document: ", uri]
  | .stale => "document changed during analysis"
  | .canceled => "context canceled"

/-- A reference together with what it means. -/
structure Usage where
  uri : Bytes
  reference : Reference
  result : Resolution
  deriving DecidableEq, Repr

/-- Whether two symbols are the same declaration of the same generation of a document. -/
def Symbol.same (a b : Symbol) : Bool :=
  a.uri = b.uri && a.name = b.name && a.kind = b.kind && a.generation = b.generation &&
    a.nameSpan = b.nameSpan

/-- Whether a usage means a symbol. -/
def Usage.means (u : Usage) (symbol : Symbol) : Bool :=
  match u.result with
  | .resolved s => s.same symbol
  | _ => false

namespace Snapshot

def document? (s : Snapshot) (uri : Bytes) : Option Document := s.docs.find? fun d => d.uri = uri

/-- A loaded document, or the reason why there is none. -/
def document (s : Snapshot) (uri : Bytes) : Except DocumentError Document :=
  match s.document? uri with
  | some d => .ok d
  | none => .error (.unknown uri)

/-- The documents in the order of their URIs. -/
def documents (s : Snapshot) : List Document :=
  s.docs.mergeSort fun a b => !b.uri.before a.uri

/-- Whether some import is still being loaded. -/
def isPending (s : Snapshot) : Bool := s.links.any fun l => l.2 = .pending

/-- The documents that the document with a URI imports. -/
def targetsOf (s : Snapshot) (uri : Bytes) : List Bytes :=
  (s.document? uri).elim [] fun d => d.targets s.links

/-- The documents that a document imports, directly or through others, the nearest first. -/
def reach (s : Snapshot) (uri : Bytes) : List Document :=
  let others := (s.docs.map Document.uri).filter (· ≠ uri)
  (gather s.targetsOf others (s.targetsOf uri)).filterMap s.document?

/-- What is visible from a document. -/
def scopeOf (s : Snapshot) (d : Document) : Scope :=
  let reached := s.reach d.uri
  { own := d.table
    imports := reached.map Document.table
    pending := (d :: reached).any fun e => e.isPending s.links }

/-- What an import with this status leads to. -/
def targetOf (s : Snapshot) (status : LinkStatus) : ImportTarget :=
  let doc := status.target?.bind s.document?
  { state := status.importState
    uri := status.target?.getD []
    table := doc.map Document.table
    tables := doc.elim [] fun d => d.table :: (s.reach d.uri).map Document.table
    error := status.error? }

/-- What each import statement of a document leads to. -/
def importTargets (s : Snapshot) (d : Document) : List ImportTarget :=
  d.keys.map fun k => s.targetOf ((s.links.status? k).getD .pending)

/-- What is visible from the document with a URI, and what its imports lead to. -/
def scope (s : Snapshot) (uri : Bytes) : Except DocumentError (Scope × List ImportTarget) := do
  let d ← s.document uri
  return (s.scopeOf d, s.importTargets d)

/-- The import statements of a document that lead to others. -/
def edges (s : Snapshot) (d : Document) : List ImportEdge :=
  d.imports.filterMap fun i => do
    let status ← s.links.status? (d.key i)
    let target ← status.target?
    return { target, span := i.pathSpan }

/-- Which document imports which. -/
def graph (s : Snapshot) : ImportGraph := s.documents.map fun d => (d.uri, s.edges d)

/-- What the references of the document with a URI mean. -/
def resolve (s : Snapshot) (c : Cache) (uri : Bytes) :
    Cache × Except DocumentError (List Resolution) :=
  match s.document uri with
  | .error e => (c, .error e)
  | .ok d =>
    let (c, results) := c.resolve (s.scopeOf d)
    (c, .ok results)

/-- The symbols of the document with a URI. -/
def symbols (s : Snapshot) (uri : Bytes) : List Symbol :=
  (s.document? uri).elim [] fun d => d.table.symbols

/-- The types with a full name that any document declares. -/
def lookup (s : Snapshot) (fullName : Bytes) : List Symbol :=
  s.documents.flatMap fun d => d.table.lookup fullName

/-- The symbol that is declared or meant at an offset of a document. -/
def symbolAt? (s : Snapshot) (uri : Bytes) (offset : Nat) : Option Symbol := do
  let d ← s.document? uri
  match d.table.symbolAt? offset with
  | some found => some found
  | none =>
    let r ← d.table.referenceAt? offset
    match r.resolve (s.scopeOf d) with
    | .resolved found => some found
    | _ => none

/-- The references of a document, with what they mean. -/
def usagesIn (s : Snapshot) (c : Cache) (d : Document) : Cache × List Usage :=
  let (c, results) := c.resolve (s.scopeOf d)
  (c, (d.table.references.zip results).map fun (reference, result) =>
    { uri := d.uri, reference, result })

/-- The references of some documents, with what they mean. -/
def usagesAmong (s : Snapshot) (c : Cache) : List Document → Cache × List Usage
  | [] => (c, [])
  | d :: rest =>
    let (c, found) := s.usagesIn c d
    let (c, more) := usagesAmong s c rest
    (c, found ++ more)

/-- All references of IDL documents, by document and place. -/
def references (s : Snapshot) (c : Cache) : Cache × List Usage :=
  s.usagesAmong c (s.documents.filter fun d => d.tree?.isSome)

/-- The references that mean a symbol. -/
def usages (s : Snapshot) (c : Cache) (symbol : Symbol) : Cache × List Usage :=
  let (c, found) := s.references c
  (c, found.filter (·.means symbol))

/-- What a document is checked against, given what its references mean. -/
def checkInput (s : Snapshot) (d : Document) (results : List Resolution) : CheckInput :=
  { scope := s.scopeOf d
    results
    targets := s.importTargets d
    graph := s.graph
    reporters := s.opened }

/-- The problems of the document with a URI. Work on an IDL document is given up when there is an
`interrupt`. The problems of a JSON document are those of its table. -/
def diagnostics (s : Snapshot) (opts : CheckOptions) (interrupt : Option DocumentError) (c : Cache)
    (uri : Bytes) : Cache × Except DocumentError (List Diagnostic) :=
  match s.document uri with
  | .error e => (c, .error e)
  | .ok d =>
    match d.tree?, interrupt with
    | none, _ => (c, .ok d.table.diagnostics)
    | some _, some e => (c, .error e)
    | some tree, none =>
      let (c, results) := c.resolve (s.scopeOf d)
      let found := tree.diagnostics.map fun p => { p with uri }
      (c, .ok (found ++ opts.check (s.checkInput d results)))

end Snapshot

end AvroIdl
