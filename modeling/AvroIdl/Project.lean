import AvroIdl.Loader
import AvroIdl.Snapshot
import AvroIdl.Tree.Reparse

/-!
# Projects

The documents that are open in an editor, together with all that they import. Each change publishes
a new generation of a document. Imports are loaded one by one, in any order and at any later time:
`finishLoad` ends one load, and `settle` ends all that can end.
-/

namespace AvroIdl

/-- How documents are read and checked. -/
structure ProjectOptions where
  /-- Larger documents are not parsed. -/
  maxSize : Nat := maxOffset
  check : CheckOptions := {}
  deriving DecidableEq, Repr

/-- The analysis of a document that is under way. -/
structure Analysis where
  uri : Bytes
  /-- Tells analyses apart. -/
  run : Nat
  /-- The documents when it began. -/
  snapshot : Snapshot
  deriving Repr

/-- What the analysis of a document found. -/
structure AnalysisReport where
  generation : UInt64
  diagnostics : List Diagnostic
  deriving DecidableEq, Repr

/-- Why an update is refused. -/
inductive UpdateError where
  | unknown (uri : Bytes)
  | outOfRange (error : EditOutOfRange)
  deriving DecidableEq, Repr

def UpdateError.message : UpdateError → Bytes
  | .unknown uri => (DocumentError.unknown uri).message
  | .outOfRange e => e.message

/-- All documents of an editor session. -/
structure Project where
  options : ProjectOptions := {}
  now : Snapshot := {}
  cache : Cache := {}
  /-- The loads under way. -/
  loads : List LinkKey := []
  /-- The newest analysis of each document that is being analyzed. -/
  running : List (Bytes × Nat) := []
  /-- A closed project loads nothing. -/
  closed : Bool := false
  /-- The number of documents that were read and of analyses that were begun. -/
  serial : Nat := 0
  deriving Repr

namespace Project

def parseOptions (p : Project) (generation : UInt64) : ParseOptions :=
  { generation, maxSize := p.options.maxSize }

/-- Makes the analyses of a document stale. -/
def interrupt (p : Project) (uri : Bytes) : Project :=
  { p with running := p.running.filter fun r => r.1 ≠ uri }

/-- Begins to load what the imports of a document ask for, unless that was begun before. -/
def schedule (p : Project) (d : Document) : Project :=
  if p.closed then p
  else
    d.keys.foldl
      (fun p key =>
        if (p.now.links.status? key).isSome then p
        else
          { p with
            now := { p.now with links := p.now.links.set key .pending }
            loads := p.loads ++ [key] })
      p

/-- The documents that are open, and those that they import, directly or through others. -/
def live (s : Snapshot) : List Bytes := gather s.targetsOf (s.docs.map Document.uri) s.opened

/-- Drops the documents that are neither open nor imported by an open one, and the links that no
statement of a loaded document asks for. -/
def sweep (p : Project) : Project :=
  let kept := live p.now
  let docs := p.now.docs.filter fun d => kept.contains d.uri
  let dropped := p.now.docs.filter fun d => !kept.contains d.uri
  let asked := docs.flatMap Document.keys
  { p with
    now := { p.now with docs, links := p.now.links.filter fun l => asked.contains l.1 }
    cache := dropped.foldl (fun c d => c.invalidate d.uri) p.cache }

/-- Goes on to the next version. -/
def advance (p : Project) : Project := { p with now := { p.now with version := p.now.version + 1 } }

/-- Puts in a document in the place of that with the same URI. -/
def publish (p : Project) (d : Document) : Project :=
  let docs := p.now.docs.filter (fun e => e.uri ≠ d.uri) ++ [d]
  let p := { p with
    now := { p.now with docs }
    cache := p.cache.invalidate d.uri
    serial := p.serial + 1 }
  (p.schedule d).sweep.advance

/-- Reads a document with the next serial number. -/
def read (p : Project) (uri : Bytes) (kind : DocumentKind) (text : Bytes) (generation : UInt64) :
    Document :=
  Document.read p.serial uri kind text (p.parseOptions generation)

/-- Opens a document in an editor. One that is loaded gets the text as a new generation. -/
def openDocument (p : Project) (uri text : Bytes) : Project × Document :=
  let p := p.interrupt uri
  let d :=
    match p.now.document? uri with
    | some old => p.read uri old.kind text (old.generation + 1)
    | none => p.read uri (DocumentKind.ofUri uri) text 1
  let p := { p with now := { p.now with opened := p.now.opened.filter (· ≠ uri) ++ [uri] } }
  (p.publish d, d)

/-- The next generation of a document after an edit. -/
def edited (p : Project) (old : Document) (edit : Edit) : Except EditOutOfRange Document :=
  match old.tree? with
  | some tree => do
    let r ← tree.reparse edit { maxSize := p.options.maxSize }
    return Document.ofTree p.serial old.uri old.kind r.tree
  | none => do
    let text ← edit.apply old.text
    return p.read old.uri old.kind text (old.generation + 1)

/-- Applies an edit to a document. -/
def update (p : Project) (uri : Bytes) (edit : Edit) : Project × Except UpdateError Document :=
  match p.now.document? uri with
  | none => (p, .error (.unknown uri))
  | some old =>
    let p := p.interrupt uri
    match p.edited old edit with
    | .error e => (p, .error (.outOfRange e))
    | .ok d => (p.publish d, .ok d)

/-- Closes a document. It stays loaded as long as others import it. -/
def closeDocument (p : Project) (uri : Bytes) : Project :=
  let p := p.interrupt uri
  { p with now := { p.now with opened := p.now.opened.filter (· ≠ uri) } }.sweep.advance

/-- Closes the project. All loads and analyses are given up. -/
def close (p : Project) : Project := { p with closed := true, loads := [], running := [] }

/-- Tries imports again that were not found or could not be read. -/
def refresh (p : Project) : Project :=
  let links := p.now.links.filter fun l => l.2.error?.isNone
  let p := { p with now := { p.now with links } }
  (p.now.docs.foldl schedule p).advance

/-- The document that a load found, unless it is loaded. -/
def loaded? (p : Project) (key : LinkKey) (uri text : Bytes) : Option Document :=
  if (p.now.document? uri).isSome then none
  else some (p.read uri (DocumentKind.ofImport key.kind uri) text 1)

/-- Ends a load with its outcome. The outcome is dropped if no statement asks for it any more. -/
def finishLoad (p : Project) (key : LinkKey) (outcome : Except LoadError (Bytes × Bytes)) :
    Project :=
  let p := { p with loads := p.loads.erase key }
  if p.closed || (p.now.links.status? key).isNone then p
  else
    match outcome with
    | .error e =>
      { p with now := { p.now with links := p.now.links.set key (.broken e) } }.advance
    | .ok (uri, text) =>
      let found := p.loaded? key uri text
      let p := { p with now := { p.now with links := p.now.links.set key (.loaded uri) } }
      (found.elim p p.publish).advance

/-- Ends the loads under way for which `ready` holds, and those that they begin, in at most so many
rounds. -/
def settleRounds (l : Loader) (ready : LinkKey → Bool) : Nat → Project → Project
  | 0, p => p
  | n + 1, p =>
    match p.loads.filter ready with
    | [] => p
    | due =>
      settleRounds l ready n
        (due.foldl (fun p key => p.finishLoad key (l.load key.source key.path)) p)

/-- Ends all loads for which `ready` holds. Each round but the last loads a file that was not
loaded before, so their number is bounded by that of the files. -/
def settle (p : Project) (l : Loader) (ready : LinkKey → Bool := fun _ => true) : Project :=
  settleRounds l ready (l.files.files.length + 1) p

/-- Begins the analysis of a document. An earlier one of the same document becomes stale. -/
def beginAnalysis (p : Project) (uri : Bytes) : Project × Analysis :=
  let p := p.interrupt uri
  ({ p with running := (uri, p.serial) :: p.running, serial := p.serial + 1 },
    { uri, run := p.serial, snapshot := p.now })

/-- Why the analysis cannot go on, if it cannot. -/
def interruption? (p : Project) (a : Analysis) (canceled : Bool) : Option DocumentError :=
  if canceled then some .canceled
  else if p.running.contains (a.uri, a.run) then none
  else some .stale

/-- The report on the documents as they were when the analysis began, unless the document has
changed. -/
def report (p : Project) (a : Analysis) (diagnostics : List Diagnostic) :
    Except DocumentError AnalysisReport :=
  match p.now.document? a.uri, a.snapshot.document? a.uri with
  | some d, some before =>
    if d.serial = before.serial then .ok { generation := d.generation, diagnostics }
    else .error .stale
  | _, _ => .error .stale

/-- Ends the analysis of a document. -/
def finishAnalysis (p : Project) (a : Analysis) (canceled : Bool) :
    Project × Except DocumentError AnalysisReport :=
  let (cache, found) :=
    a.snapshot.diagnostics p.options.check (p.interruption? a canceled) p.cache a.uri
  let p := { p with cache, running := p.running.filter (· ≠ (a.uri, a.run)) }
  (p, found.bind (p.report a))

/-- Analyzes a document. -/
def analyze (p : Project) (uri : Bytes) : Project × Except DocumentError AnalysisReport :=
  let (p, a) := p.beginAnalysis uri
  p.finishAnalysis a false

/-- Waits for the loads under way. That can be withdrawn as long as there are some. -/
def waitIdle (p : Project) (canceled : Bool) : Except DocumentError Unit :=
  if canceled && !p.loads.isEmpty then .error .canceled else .ok ()

end Project

end AvroIdl
