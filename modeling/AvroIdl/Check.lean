import AvroIdl.Check.Declaration
import AvroIdl.Check.Default
import AvroIdl.Check.Graph
import AvroIdl.LoadError

/-!
# Checks of a document

All problems of a document against the tables that are visible from it. Each check reports on its
own: what one finds never stops another.
-/

namespace AvroIdl

/-- What has become of an import. -/
inductive ImportState where
  | unknown
  | loaded
  | pending
  | notFound
  | failed
  deriving DecidableEq, Repr

/-- What one import statement leads to. -/
structure ImportTarget where
  state : ImportState
  uri : Bytes := []
  /-- The table of a loaded target. -/
  table : Option Table := none
  /-- The tables that come with the import: the target's, and those of all that it imports. -/
  tables : List Table := []
  error : Option LoadError := none
  deriving Repr

/-- What a document is checked against. -/
structure CheckInput where
  scope : Scope
  /-- What the references of the document mean, if that is known. -/
  results : List Resolution := []
  /-- One for each import statement of the document. -/
  targets : List ImportTarget := []
  graph : ImportGraph := []
  /-- The documents that report problems shared by several, such as cycles. -/
  reporters : List Bytes := []
  deriving Repr

/-- Which problems are reported, and how. -/
structure CheckOptions where
  disabled : List Nat := []
  warningsAsErrors : Bool := false
  deriving DecidableEq, Repr

namespace CheckInput

def own (i : CheckInput) : Table := i.scope.own

/-- What the references of the document mean. Results that do not belong to them are not used. -/
def meanings (i : CheckInput) : List Resolution :=
  if i.results.length = i.own.references.length then i.results else i.scope.resolveAll

/-- The problem of one import statement. -/
def checkImport? (statement : Import) (target : ImportTarget) : Option Diagnostic :=
  let path := statement.path
  let span := statement.pathSpan
  match target.state with
  | .unknown => none
  | .notFound => some (Problem.importNotFound path span)
  | .failed =>
    let reason := (target.error.map LoadError.message).getD "unknown error"
    some (Problem.importUnreadable path reason span)
  | .pending => some (Problem.importPending path span)
  | .loaded =>
    let unreadable := target.table.any fun t => t.diagnostics.any fun d => d.code = 3002
    if unreadable then some (Problem.importUnreadable path "not a valid schema or protocol" span)
    else none

/-- The problems of import statements. -/
def checkImports (i : CheckInput) : List Diagnostic :=
  (i.own.imports.zip i.targets).filterMap fun (statement, target) => checkImport? statement target

/-- The consecutive pairs of a list. -/
def steps (way : List Bytes) : List (Bytes × Bytes) := way.zip way.tail

/-- The problem of an import cycle through the document. Only one member of a cycle reports it. -/
def checkCycle (i : CheckInput) : List Diagnostic :=
  let start := i.own.uri
  let members := i.graph.members start
  if !(i.graph.descendants start).contains start || reporterOf members i.reporters ≠ start then []
  else
    match i.graph.shortestCycle? start members with
    | none => []
    | some cycle =>
      let span := ((steps cycle).head?.bind fun (a, b) => i.graph.edgeSpan? a b).getD ⟨0, 0⟩
      let related := (steps cycle).tail.filterMap fun (a, b) =>
        (i.graph.edgeSpan? a b).map fun s =>
          { uri := a, span := s, message := Bytes.join ["imports ", b] }
      [Problem.importCycle cycle span related]

/-- The imported tables of other documents. -/
def foreign (i : CheckInput) : List Table := i.scope.imports.filter fun t => t.uri ≠ i.own.uri

/-- The problems of own types that an import declares too. -/
def checkOwnDuplicates (i : CheckInput) : List Diagnostic :=
  i.own.types.filterMap fun s =>
    let others := i.foreign.flatMap (·.lookup s.name)
    if others.isEmpty then none else some (Problem.duplicateImported s others)

/-- The imported types whose names the document does not declare. -/
def importedTypes (i : CheckInput) : List Symbol :=
  (i.foreign.flatMap Table.types).filter fun s => (i.own.lookup s.name).isEmpty

/-- The problems of names that come with more than one import statement. -/
def checkImportedDuplicates (i : CheckInput) : List Diagnostic :=
  let types := i.importedTypes
  (types.map (·.name)).eraseDups.flatMap fun name =>
    let same := types.filter fun s => s.name = name
    let through := (i.own.imports.zip i.targets).filter fun (_, target) =>
      same.any fun s => target.tables.any fun t => t.uri = s.uri
    if same.length < 2 || through.length < 2 then []
    else through.map fun (statement, _) =>
      Problem.duplicateBetweenImports name statement.pathSpan same

/-- The problem of one reference. A name may still come with an import that is being loaded. -/
def checkReference? (pending : Bool) (r : Reference) : Resolution → Option Diagnostic
  | .unresolved => if pending then none else some (Problem.unknownType r.name r.span)
  | .ambiguous candidates => some (Problem.ambiguousType r.name candidates r.span)
  | .primitive _ =>
    if r.errorsOnly then some (Problem.throwsOther r.name "primitive" r.span) else none
  | .resolved s =>
    if r.errorsOnly && s.kind ≠ .error then some (Problem.throwsOther s.name s.kind.name r.span)
    else none

/-- The problems of references. -/
def checkReferences (i : CheckInput) : List Diagnostic :=
  (i.own.references.zip i.meanings).filterMap fun (r, result) =>
    checkReference? i.scope.pending r result

end CheckInput

namespace Node

/-- The problems of one node. -/
def check (n : Node) (meanings : Meanings) : List Diagnostic :=
  match n.kind with
  | .recordDecl | .errorDecl => n.checkFields
  | .fieldDecl | .formalParam => n.checkDefaults meanings
  | .enumDecl => n.checkEnum
  | .messageDecl => n.checkMessage
  | _ => []

end Node

namespace Element

mutual

/-- The problems in an element that starts at an offset, parents first. Annotations and JSON values
are not looked into. -/
def check (meanings : Meanings) (start : Nat) : Element → List Diagnostic
  | leaf _ => []
  | node l children =>
    Node.check ⟨start, l, children⟩ meanings ++
      match l.kind with
      | .jsonObject | .jsonArray | .annotationDecl => []
      | _ => checkAll meanings start children

/-- The problems in elements that follow each other. -/
def checkAll (meanings : Meanings) (start : Nat) : List Element → List Diagnostic
  | [] => []
  | e :: rest => e.check meanings start ++ checkAll meanings (start + e.width) rest

end

end Element

namespace CheckInput

/-- The problems of declarations and default values. -/
def checkTree (i : CheckInput) : List Diagnostic :=
  let meanings := (i.own.references.map (·.node)).zip i.meanings
  match i.own.tree with
  | some tree => tree.element.check meanings 0
  | none => []

/-- All problems, in the order of the checks. -/
def problems (i : CheckInput) : List Diagnostic :=
  i.own.diagnostics ++ i.checkImports ++ i.checkCycle ++ i.checkOwnDuplicates ++
    i.checkImportedDuplicates ++ i.checkReferences ++ i.checkTree

end CheckInput

/-- Whether one diagnostic is shown before another or beside it: by place, then by length, code and
message. -/
def Diagnostic.notAfter (a b : Diagnostic) : Bool :=
  if a.span.start ≠ b.span.start then a.span.start < b.span.start
  else if a.span.len ≠ b.span.len then a.span.len < b.span.len
  else if a.code ≠ b.code then a.code < b.code
  else !b.message.before a.message

namespace CheckOptions

/-- A diagnostic as it is reported, if it is. One without a document belongs to `uri`. -/
def report? (opts : CheckOptions) (uri : Bytes) (d : Diagnostic) : Option Diagnostic :=
  if opts.disabled.contains d.code then none
  else
    some { d with
      severity := if opts.warningsAsErrors && d.severity = .warning then .error else d.severity
      uri := if d.uri.isEmpty then uri else d.uri }

/-- The problems of a document as they are reported, in the order of their places. -/
def check (opts : CheckOptions) (i : CheckInput) : List Diagnostic :=
  (i.problems.filterMap (opts.report? i.own.uri)).mergeSort Diagnostic.notAfter

end CheckOptions

end AvroIdl
