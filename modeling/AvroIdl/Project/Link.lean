import AvroIdl.Check
import AvroIdl.Document

/-!
# Links

What has become of the import statements of loaded documents.
-/

namespace AvroIdl

/-- What an import statement asks for. Statements of one document that ask for the same share a
link. -/
structure LinkKey where
  /-- The document that imports. -/
  source : Bytes
  path : Bytes
  kind : ImportKind
  deriving DecidableEq, Repr

/-- What has come of it. -/
inductive LinkStatus where
  | pending
  /-- The document with this URI is meant. -/
  | loaded (uri : Bytes)
  | broken (error : LoadError)
  deriving DecidableEq, Repr

namespace LinkStatus

/-- The document that a link leads to. -/
def target? : LinkStatus → Option Bytes
  | loaded uri => some uri
  | _ => none

/-- The state that checks report on. -/
def importState : LinkStatus → ImportState
  | pending => .pending
  | loaded _ => .loaded
  | broken (.notFound _) => .notFound
  | broken _ => .failed

def error? : LinkStatus → Option LoadError
  | broken e => some e
  | _ => none

end LinkStatus

/-- The link of each import that is asked for. -/
abbrev Links := List (LinkKey × LinkStatus)

namespace Links

def status? (links : Links) (key : LinkKey) : Option LinkStatus := links.lookup key

/-- Puts in a status in the place of that of the same key. -/
def set (links : Links) (key : LinkKey) (status : LinkStatus) : Links :=
  links.filter (fun l => l.1 ≠ key) ++ [(key, status)]

end Links

namespace Document

/-- What an import statement of the document asks for. -/
def key (d : Document) (i : Import) : LinkKey := ⟨d.uri, i.path, i.kind⟩

/-- What the import statements of the document ask for. -/
def keys (d : Document) : List LinkKey := d.imports.map d.key

/-- The documents that its imports lead to. -/
def targets (d : Document) (links : Links) : List Bytes :=
  d.keys.filterMap fun k => (links.status? k).bind LinkStatus.target?

/-- Whether some import of the document is not loaded yet. -/
def isPending (d : Document) (links : Links) : Bool :=
  d.keys.any fun k => (links.status? k).all (· = .pending)

end Document

end AvroIdl
