import AvroIdl.Config.Level
import AvroIdl.Project
import AvroIdl.Yaml.Settings

/-!
# Configuration

Settings have defaults, which a file and then variables of the environment replace.
-/

namespace AvroIdl

/-- The settings. -/
structure Config where
  /-- Where imports are looked for that are not beside the document. -/
  searchPaths : List Bytes := []
  logLevel : Bytes := "warning"
  /-- The size of the largest document. Zero is no bound. -/
  maxFileSize : Nat := 0
  maxConcurrentLoads : Int := 8
  warningsAsErrors : Bool := false
  disabledChecks : List Nat := []
  deriving DecidableEq, Repr

/-- A setting that makes no sense. -/
inductive ConfigProblem where
  | level (name : Bytes)
  | concurrentLoads (n : Int)
  | disabledCheck (code : Nat)
  deriving DecidableEq, Repr

def ConfigProblem.message : ConfigProblem → Bytes
  | .level name => Bytes.join ["not a valid logrus Level: ", name.quoted]
  | .concurrentLoads n => Bytes.join ["max_concurrent_loads must be positive, got ", Bytes.ofInt n]
  | .disabledCheck code =>
    Bytes.join ["disabled_checks: ", Bytes.ofNat code, " is not a diagnostic code"]

/-- Why there is no configuration. -/
inductive ConfigError where
  /-- There is no file at the path. -/
  | missing (path : Bytes)
  /-- The file at the path is no list of settings. -/
  | malformed (path : Bytes)
  /-- The variable does not spell a value of its setting. -/
  | environment (name : Bytes)
  | invalid (problem : ConfigProblem)
  deriving DecidableEq, Repr

/-- The reason why no file is read at a path. -/
def fileMissing (path : Bytes) : Bytes :=
  Bytes.join ["open ", FileTree.key path, ": file does not exist"]

def ConfigError.message : ConfigError → Bytes
  | .missing path => Bytes.join ["config yaml: read ", path, ": ", fileMissing path]
  | .malformed path => Bytes.join ["config yaml: parse ", path, ": malformed settings"]
  | .environment name => Bytes.join ["config env: malformed value of ", name]
  | .invalid problem => Bytes.join ["config validate: ", problem.message]

namespace Config

/-- The file that is read if no other is asked for. -/
def defaultFile : Bytes := ".avdl.yaml"

/-- The settings of a file: a name, and what it changes. A scalar without a value changes nothing. -/
def fileSettings : List (Bytes × Yaml.Setter Config) :=
  let text? (s : Bytes) (v : Yaml.Value) : Option Bytes := some (v.textOf s)
  [("search_paths", fun c p => do
      return { c with searchPaths := ← Yaml.Decode.items text? p }),
    ("log_level", fun c p => do
      return { c with logLevel := (← Yaml.Decode.scalar? text? p).getD c.logLevel }),
    ("max_file_size", fun c p => do
      let n ← Yaml.Decode.scalar? (fun _ v => v.unsigned?) p
      return { c with maxFileSize := n.getD c.maxFileSize }),
    ("max_concurrent_loads", fun c p => do
      let n ← Yaml.Decode.scalar? (fun _ v => v.signed?) p
      return { c with maxConcurrentLoads := n.getD c.maxConcurrentLoads }),
    ("warnings_as_errors", fun c p => do
      let b ← Yaml.Decode.scalar? (fun _ v => v.bool?) p
      return { c with warningsAsErrors := b.getD c.warningsAsErrors }),
    ("disabled_checks", fun c p => do
      return { c with disabledChecks := ← Yaml.Decode.items (fun _ v => v.unsigned?) p })]

/-- Changes the settings to those of a file. -/
def applyYaml? (c : Config) (text : Bytes) : Option Config := do
  match ← Yaml.Node.ofText? text with
  | none => some c
  | some root =>
    let size := text.length + 1
    ((Yaml.Settings.applyDocument fileSettings size c root).run {}).map (·.1)

/-- Whether a character is white space. -/
def isSpace (code : Nat) : Bool :=
  (0x09 ≤ code && code ≤ 0x0d) || code = 0x20 || code = 0x85 || code = 0xa0 || code = 0x1680 ||
    (0x2000 ≤ code && code ≤ 0x200a) || code = 0x2028 || code = 0x2029 || code = 0x202f ||
    code = 0x205f || code = 0x3000

/-- The items of a list in a variable, which commas divide. White space alone is the empty list. -/
def envList (value : Bytes) : List Bytes :=
  let isWhite : Rune → Bool
    | .scalar code => isSpace code
    | .stray _ => false
  if (Bytes.runes value).all isWhite then [] else value.splitOn (Bytes.ofChar ',')

/-- The number that a variable spells as an unsigned word of 32 bits. -/
def envUnsigned? (value : Bytes) : Option Nat :=
  (Bytes.literal? value).filter fun n => fitsUnsigned 32 n

/-- The number that a variable spells as a signed word of 64 bits. -/
def envSigned? (value : Bytes) : Option Int :=
  (Bytes.signed? Bytes.literal? value).filter (fitsSigned 64)

/-- The settings of the environment, in the order in which they are read: a variable, and what it
changes. -/
def settings : List (Bytes × (Config → Bytes → Option Config)) :=
  [("AVDL_SEARCH_PATHS", fun c v => some { c with searchPaths := envList v }),
    ("AVDL_LOG_LEVEL", fun c v => some { c with logLevel := v }),
    ("AVDL_MAX_FILE_SIZE", fun c v => (envUnsigned? v).map fun n => { c with maxFileSize := n }),
    ("AVDL_MAX_CONCURRENT_LOADS",
      fun c v => (envSigned? v).map fun n => { c with maxConcurrentLoads := n }),
    ("AVDL_WARNINGS_AS_ERRORS",
      fun c v => (Bytes.bool? v).map fun b => { c with warningsAsErrors := b }),
    ("AVDL_DISABLED_CHECKS",
      fun c v => ((envList v).mapM envUnsigned?).map fun codes => { c with disabledChecks := codes })]

/-- Changes the settings to those of the environment. -/
def applyEnvironment (c : Config) (env : Bytes → Option Bytes) : Except ConfigError Config :=
  settings.foldlM
    (fun c (name, set) =>
      match env name with
      | none => .ok c
      | some v => ((set c v).map Except.ok).getD (.error (.environment name)))
    c

/-- The first setting that makes no sense. -/
def problem? (c : Config) : Option ConfigProblem :=
  if (LogLevel.ofName? c.logLevel).isNone then some (.level c.logLevel)
  else if c.maxConcurrentLoads < 1 then some (.concurrentLoads c.maxConcurrentLoads)
  else (c.disabledChecks.find? fun code => code < 1000 || 4999 < code).map .disabledCheck

/-- Changes the settings to those of the file at a path. Only the default file may be missing. -/
def applyFile (c : Config) (files : FileTree) (path : Bytes) : Except ConfigError Config :=
  let file := if path.isEmpty then defaultFile else path
  match files.read? file with
  | none => if path.isEmpty then .ok c else .error (.missing file)
  | some text => ((c.applyYaml? text).map Except.ok).getD (.error (.malformed file))

/-- The configuration of a file and an environment. The empty path stands for the default file. -/
def load (files : FileTree) (path : Bytes) (env : Bytes → Option Bytes) :
    Except ConfigError Config := do
  let c ← applyFile {} files path
  let c ← c.applyEnvironment env
  match c.problem? with
  | some problem => .error (.invalid problem)
  | none => .ok c

def level (c : Config) : LogLevel := (LogLevel.ofName? c.logLevel).getD .warning

/-- The bound on the size of documents, if there is one. -/
def maxSize? (c : Config) : Option Nat := if c.maxFileSize = 0 then none else some c.maxFileSize

def projectOptions (c : Config) : ProjectOptions :=
  { maxSize := c.maxSize?.getD maxOffset
    check := { disabled := c.disabledChecks, warningsAsErrors := c.warningsAsErrors } }

def loader (c : Config) (files : FileTree) : Loader :=
  { files, searchPaths := c.searchPaths, maxSize := c.maxFileSize }

end Config

end AvroIdl
