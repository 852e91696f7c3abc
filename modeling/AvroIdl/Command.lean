import AvroIdl.Command.Options
import AvroIdl.Command.Report
import AvroIdl.Completion
import AvroIdl.Config
import AvroIdl.Refactor.Delete
import AvroIdl.Refactor.Rename

/-!
# Commands

What the commands of the command line do, given the files, the environment and the directory in
which they run.
-/

namespace AvroIdl

/-- Where a command runs. -/
structure Session where
  files : FileTree
  env : Bytes → Option Bytes
  /-- The directory that file names are relative to. -/
  directory : Bytes

/-- What a command leaves behind. -/
structure CommandResult where
  report : Report
  files : FileTree
  deriving DecidableEq, Repr

namespace Session

/-- The URI of the file with a name. -/
def uriOf (s : Session) (name : Bytes) : Bytes :=
  if Path.isAbsolute name then Path.clean name else Path.join s.directory name

/-- The URI and the text of the file with a name, or the reason why there is none. -/
def readFile (s : Session) (name : Bytes) : Except Bytes (Bytes × Bytes) :=
  let uri := s.uriOf name
  match s.files.read? uri with
  | some text => .ok (uri, text)
  | none => .error (fileMissing uri)

/-- The configuration with the search paths of the command line after its own. -/
def config (s : Session) (o : Options) : Except Bytes Config :=
  match Config.load s.files o.config s.env with
  | .ok c => .ok { c with searchPaths := c.searchPaths ++ o.searchPaths }
  | .error e => .error e.message

/-- Opens files one after the other, each once. -/
def openAll (s : Session) (p : Project) (uris : List Bytes) :
    List Bytes → Except Bytes (Project × List Bytes)
  | [] => .ok (p, uris)
  | name :: rest => do
    let (uri, text) ← s.readFile name
    if uris.contains uri then openAll s p uris rest
    else openAll s (p.openDocument uri text).1 (uris ++ [uri]) rest

/-- A project with some files open and all imports loaded, and the URIs of the files. -/
def openProject (s : Session) (o : Options) (names : List Bytes) :
    Except Bytes (Project × List Bytes) := do
  let c ← s.config o
  let (p, uris) ← s.openAll { options := c.projectOptions } [] names
  return (p.settle (c.loader s.files), uris)

/-- A project with one file open, and the document. -/
def openOne (s : Session) (o : Options) (name : Bytes) : Except Bytes (Project × Document) := do
  let (p, _) ← s.openProject o [name]
  match p.now.document (s.uriOf name) with
  | .ok d => .ok (p, d)
  | .error e => .error e.message

/-- Analyzes documents one after the other. -/
def analyzeAll (p : Project) : List Bytes → Except Bytes (List Diagnostic)
  | [] => .ok []
  | uri :: rest =>
    match p.analyze uri with
    | (_, .error e) => .error (Bytes.join [uri, ": ", e.message])
    | (p, .ok r) => do return r.diagnostics ++ (← analyzeAll p rest)

/-- The report on the problems of files and of those that they import. -/
def check (s : Session) (o : Options) (names : List Bytes) : Except Bytes Report := do
  let (p, uris) ← s.openProject o names
  let found ← analyzeAll p (if o.skipImports then uris else p.now.documents.map Document.uri)
  let errors := found.countP fun d => d.severity = .error
  let warnings := found.length - errors
  return {
    out := Bytes.join (found.map (Report.diagnostic p.now.textOf))
    err :=
      if found.isEmpty then []
      else Report.line [Report.count errors "error", ", ", Report.count warnings "warning"]
    failed := 0 < errors }

/-- The line of a token. -/
def tokenLine (text : Bytes) (start : Nat) (t : Token) : Bytes :=
  let problem := t.error.map fun e =>
    let d : Diagnostic :=
      { code := e.code, severity := .error, message := e.message t.text, span := ⟨start, t.text.length⟩ }
    Bytes.join [" ", d.text]
  Report.line [Report.lineColumn text start, " ", t.kind.name, " ", t.text.quoted, problem.getD []]

/-- The tokens of a file. -/
def tokens (s : Session) (o : Options) (name : Bytes) : Except Bytes Report := do
  let (_, text) ← s.readFile name
  let shown := (Token.located 0 (Token.all text)).filter fun (_, t) => o.trivia || !t.kind.isTrivia
  return {
    out := Bytes.join (shown.map fun (start, t) => tokenLine text start t)
    failed := shown.any fun (_, t) => t.error.isSome }

/-- The line of a node at a depth. -/
def nodeLine (text : Bytes) (depth : Nat) (n : Node) : Bytes :=
  let name := n.name?.map fun l => Bytes.join [" ", l.text]
  let problem := n.diagnostic?.map fun d => Bytes.join [" !", d.text]
  Report.line [(List.replicate depth (Bytes.ofString "  ")).flatten, n.kind.name, " ",
    Report.lineColumn text n.span.start, name.getD [], problem.getD []]

end Session

namespace Element

mutual

/-- The lines of the nodes of an element at an offset, parents first. -/
def outline (text : Bytes) (depth start : Nat) : Element → Bytes
  | leaf _ => []
  | node l children =>
    Session.nodeLine text depth ⟨start, l, children⟩ ++ outlineAll text (depth + 1) start children

/-- The lines of elements that follow each other. -/
def outlineAll (text : Bytes) (depth start : Nat) : List Element → Bytes
  | [] => []
  | e :: rest => e.outline text depth start ++ outlineAll text depth (start + e.width) rest

end

end Element

namespace Session

/-- The tree of a file, and its problems. -/
def tree (s : Session) (o : Options) (name : Bytes) : Except Bytes Report := do
  let c ← s.config o
  let (uri, text) ← s.readFile name
  let t := Tree.parse text { maxSize := c.maxSize?.getD maxOffset }
  let found := t.diagnostics.map fun d => { d with uri }
  return {
    out := t.element.outline text 0 0
    err := Bytes.join (found.map (Report.diagnostic fun _ => text))
    failed := !found.isEmpty }

/-- The types that a file declares, and those that it imports if they are asked for. -/
def symbols (s : Session) (o : Options) (name : Bytes) : Except Bytes Report := do
  let (p, d) ← s.openOne o name
  let own := d.table.symbols.map fun x =>
    Report.line [Report.lineColumn d.text x.nameSpan.start, " ", x.render]
  let imported := ((p.now.scopeOf d).imports.flatMap Table.types).map fun x =>
    Report.line [x.uri, " ", x.render]
  return { out := Bytes.join (own ++ if o.visible then imported else []) }

/-- The offset in a document that a position spells. -/
def offsetOf (d : Document) (position : Bytes) : Except Bytes Nat :=
  (Position.toOffset d.text position).mapError PositionError.message

/-- The line of a name that can be written. -/
def candidateLine (c : Candidate) : Bytes :=
  let detail := if c.detail.isEmpty then [] else Bytes.join ["\t", c.detail]
  Report.line [c.label, "\t", c.kind, detail]

/-- The names that can be written at a position of a file. -/
def complete (s : Session) (o : Options) (name position : Bytes) : Except Bytes Report := do
  let (p, d) ← s.openOne o name
  let offset ← offsetOf d position
  let found ← (p.now.complete d.uri offset).mapError CompletionError.message
  return { out := Bytes.join (found.candidates.map candidateLine) }

/-- The type that is declared or meant at a position of a file. -/
def symbolAt (s : Session) (o : Options) (name position : Bytes) :
    Except Bytes (Project × Symbol) := do
  let (p, d) ← s.openOne o name
  let offset ← offsetOf d position
  match p.now.symbolAt? d.uri offset with
  | some found => .ok (p, found)
  | none =>
    .error (Bytes.join [name, ":", position, ": no type is declared or referenced here"])

/-- The line of an edit. -/
def editLine (texts : Bytes → Bytes) (e : TextEdit) : Bytes :=
  Report.line [Report.place texts e.uri e.span.start, ": replace ", Bytes.ofNat e.span.len,
    " bytes with ", e.newText.quoted]

/-- Writes documents with their edits, one after the other. -/
def writeAll (now : Snapshot) (edits : List TextEdit) (r : CommandResult) :
    List Bytes → CommandResult
  | [] => r
  | uri :: rest =>
    let fail (message : Bytes) : CommandResult :=
      { r with report :=
          { r.report with err := r.report.err ++ Report.line [message], failed := true } }
    match now.document uri with
    | .error e => fail e.message
    | .ok d =>
      match TextEdit.applyAll d.text (edits.filter fun e => e.uri = uri) with
      | .error e => fail e.message
      | .ok text =>
        let err := r.report.err ++ Report.line ["Wrote ", uri]
        writeAll now edits { report := { r.report with err }, files := r.files.write uri text } rest

/-- Shows edits, or writes the documents with them. -/
def apply (s : Session) (o : Options) (now : Snapshot) (warnings : Bytes) (edits : List TextEdit) :
    CommandResult :=
  if o.write then
    let uris := (edits.map (·.uri)).eraseDups.mergeSort fun a b => !b.before a
    writeAll now edits { report := { err := warnings }, files := s.files } uris
  else
    { report := { out := Bytes.join (edits.map (editLine now.textOf)), err := warnings }
      files := s.files }

/-- Renames the type at a position of a file. -/
def rename (s : Session) (o : Options) (name position newName : Bytes) :
    Except Bytes CommandResult := do
  let (p, symbol) ← s.symbolAt o name position
  let r ← (p.now.rename p.cache symbol newName).2.mapError RefactorError.message
  let warnings := Bytes.join (r.warnings.map (Report.diagnostic p.now.textOf))
  return s.apply o p.now warnings r.edits

/-- Deletes the type at a position of a file, unless it is used. -/
def delete (s : Session) (o : Options) (name position : Bytes) : Except Bytes CommandResult := do
  let (p, symbol) ← s.symbolAt o name position
  match ← (p.now.delete p.cache symbol).2.mapError RefactorError.message with
  | .edits edits => return s.apply o p.now [] edits
  | .blocked usages =>
    let places := usages.map fun u =>
      Report.line ["  ", Report.place p.now.textOf u.uri u.span.start]
    let err := Bytes.join (Report.line [symbol.render, " is still used:"] :: places)
    return { report := { err, failed := true }, files := s.files }

/-- Runs a command on its operands. The wrong number of operands is answered with the usage. -/
def runCommand (s : Session) (c : Command) (o : Options) (operands : List Bytes) :
    Except Bytes CommandResult := do
  let reported (r : Except Bytes Report) : Except Bytes CommandResult :=
    r.map fun report => { report, files := s.files }
  let usage : Except Bytes CommandResult := .error (Bytes.join ["usage: avdl ", c.usage])
  match c, operands with
  | .check, [] => usage
  | .check, names => reported (s.check o names)
  | .tokens, [name] => reported (s.tokens o name)
  | .tree, [name] => reported (s.tree o name)
  | .symbols, [name] => reported (s.symbols o name)
  | .complete, [name, position] => reported (s.complete o name position)
  | .rename, [name, position, newName] => s.rename o name position newName
  | .delete, [name, position] => s.delete o name position
  | _, _ => usage

/-- The commands with what they work on. -/
def overview : Bytes :=
  Bytes.join (Report.line ["usage: avdl [options] COMMAND"] ::
    Command.all.map fun c => Report.line ["  ", c.usage])

/-- Runs the command line. -/
def run (s : Session) (args : List Bytes) : CommandResult :=
  let fail (message : Bytes) : CommandResult :=
    { report := Report.failure message, files := s.files }
  match Options.readCommand args with
  | .error e => fail e.message
  | .ok (command, o, operands) =>
    if o.help then { report := { out := overview }, files := s.files }
    else
      match command with
      | none => { report := { err := overview, failed := true }, files := s.files }
      | some c =>
        match s.runCommand c o operands with
        | .ok r => r
        | .error message => fail message

/-- The paths of the files that a command line looks for, as far as the files that are known tell.
Each file that becomes known may add to them. -/
def lookups (s : Session) (args : List Bytes) : List Bytes :=
  match Options.readCommand args with
  | .ok (some c, o, operands) =>
    let names := c.fileOperands operands
    let imports :=
      match s.config o, s.openProject o names with
      | .ok config, .ok (p, _) =>
        p.now.links.flatMap fun (key, _) => (config.loader s.files).candidates key.source key.path
      | _, _ => []
    (if o.config.isEmpty then Config.defaultFile else o.config) :: names.map s.uriOf ++ imports
  | _ => []

end Session

end AvroIdl
