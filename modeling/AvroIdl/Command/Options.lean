import AvroIdl.Text.Case
import AvroIdl.Text.Distance
import AvroIdl.Text.Quoted

/-!
# Options of the command line

Arguments that start with a dash set options, before or after the name of the command. All others
are what the command works on.
-/

namespace AvroIdl

/-- What can be asked for. -/
inductive Command where
  | check
  | tokens
  | tree
  | symbols
  | complete
  | rename
  | delete
  deriving DecidableEq, Repr

namespace Command

def all : List Command := [check, tokens, tree, symbols, complete, rename, delete]

def name : Command → Bytes
  | check => "check"
  | tokens => "tokens"
  | tree => "tree"
  | symbols => "symbols"
  | complete => "complete"
  | rename => "rename"
  | delete => "delete"

/-- The command with what it works on. -/
def usage : Command → Bytes
  | check => "check FILE..."
  | tokens => "tokens FILE"
  | tree => "tree FILE"
  | symbols => "symbols FILE"
  | complete => "complete FILE POSITION"
  | rename => "rename FILE POSITION NEW_NAME"
  | delete => "delete FILE POSITION"

def ofName? (s : Bytes) : Option Command := all.find? fun c => c.name = s

/-- The commands that a name may be meant for: it begins theirs or differs from it in two bytes at
the most. -/
def similar (s : Bytes) : List Command :=
  all.filter fun c => s.lower.isPrefixOf c.name || s.lower.distance c.name ≤ 2

/-- What is said on the commands that a name may be meant for. -/
def hint (s : Bytes) : Bytes :=
  match similar s with
  | [] => []
  | found =>
    Bytes.join ("\n\nDid you mean this?\n" :: found.map fun c => Bytes.join ["\t", c.name, "\n"])

/-- The operands that name files. -/
def fileOperands : Command → List Bytes → List Bytes
  | check, operands => operands
  | _, operands => operands.take 1

end Command

/-- The options. -/
inductive Flag where
  | config
  | searchPath
  | noColor
  | verbose
  | skipImports
  | trivia
  | visible
  | write
  | help
  deriving DecidableEq, Repr

namespace Flag

def name : Flag → Bytes
  | config => "config"
  | searchPath => "search-path"
  | noColor => "no-color"
  | verbose => "verbose"
  | skipImports => "skip-imports"
  | trivia => "trivia"
  | visible => "visible"
  | write => "write"
  | help => "help"

/-- The letter that stands for an option. -/
def letter? : Flag → Option UInt8
  | config => some (Bytes.ofChar 'c')
  | searchPath => some (Bytes.ofChar 'I')
  | verbose => some (Bytes.ofChar 'v')
  | write => some (Bytes.ofChar 'w')
  | help => some (Bytes.ofChar 'h')
  | noColor | skipImports | trivia | visible => none

/-- Whether an option is on or off. The others take a text. -/
def isSwitch : Flag → Bool
  | config | searchPath => false
  | _ => true

/-- An option as messages show it. -/
def render (f : Flag) : Bytes :=
  match f.letter? with
  | some c => Bytes.join ["-", [c], ", --", f.name]
  | none => Bytes.join ["--", f.name]

/-- The options that stand with or without a command. -/
def common : List Flag := [config, searchPath, noColor, verbose]

end Flag

/-- The options that a command knows of its own. -/
def Command.flags : Command → List Flag
  | .check => [.skipImports]
  | .tokens => [.trivia]
  | .symbols => [.visible]
  | .rename | .delete => [.write]
  | .tree | .complete => []

/-- The values of the options. -/
structure Options where
  config : Bytes := []
  searchPaths : List Bytes := []
  noColor : Bool := false
  verbose : Bool := false
  skipImports : Bool := false
  trivia : Bool := false
  visible : Bool := false
  write : Bool := false
  help : Bool := false
  deriving DecidableEq, Repr

/-- What is wrong with the arguments. -/
inductive OptionError where
  | unknownCommand (name : Bytes)
  | badForm (arg : Bytes)
  | unknownFlag (name : Bytes)
  /-- No option has the letter, which stands in a group of letters. -/
  | unknownLetter (letter : UInt8) (group : Bytes)
  | missingValue (arg : Bytes)
  | missingLetterValue (letter : UInt8) (group : Bytes)
  /-- The value of a switch is neither on nor off. -/
  | badSwitch (flag : Flag) (value : Bytes)
  deriving DecidableEq, Repr

def OptionError.message : OptionError → Bytes
  | .unknownCommand name =>
    Bytes.join ["unknown command ", name.quoted, " for \"avdl\"", Command.hint name]
  | .badForm arg => Bytes.join ["bad flag syntax: ", arg]
  | .unknownFlag name => Bytes.join ["unknown flag: --", name]
  | .unknownLetter c group =>
    Bytes.join ["unknown shorthand flag: ", quotedChar c.toNat, " in -", group]
  | .missingValue arg => Bytes.join ["flag needs an argument: ", arg]
  | .missingLetterValue c group =>
    Bytes.join ["flag needs an argument: ", quotedChar c.toNat, " in -", group]
  | .badSwitch flag value =>
    Bytes.join ["invalid argument ", value.quoted, " for ", flag.render.quoted,
      " flag: strconv.ParseBool: parsing ", value.quoted, ": invalid syntax"]

namespace Options

/-- Turns a switch on or off. -/
def turn (o : Options) (b : Bool) : Flag → Options
  | .noColor => { o with noColor := b }
  | .verbose => { o with verbose := b }
  | .skipImports => { o with skipImports := b }
  | .trivia => { o with trivia := b }
  | .visible => { o with visible := b }
  | .write => { o with write := b }
  | .help => { o with help := b }
  | .config | .searchPath => o

/-- Sets an option. Search paths add up. -/
def set (o : Options) (flag : Flag) (value : Bytes) : Except OptionError Options :=
  match flag with
  | .config => .ok { o with config := value }
  | .searchPath => .ok { o with searchPaths := o.searchPaths ++ [value] }
  | flag =>
    match Bytes.bool? value with
    | some b => .ok (o.turn b flag)
    | none => .error (.badSwitch flag value)

/-- The value of a switch that is given without one. -/
def on : Bytes := "true"

/-- Reads one argument that starts with two dashes, and returns the arguments after it. -/
def readLong (flags : List Flag) (o : Options) (arg : Bytes) (rest : List Bytes) :
    Except OptionError (Options × List Bytes) :=
  let body := arg.drop 2
  if body.head?.all fun c => c = Bytes.ofChar '-' || c = Bytes.ofChar '=' then
    .error (.badForm arg)
  else
    let name := body.takeWhile (· ≠ Bytes.ofChar '=')
    match flags.find? fun f => f.name = name with
    | none => .error (.unknownFlag name)
    | some flag =>
      if name.length < body.length then do
        return (← o.set flag (body.drop (name.length + 1)), rest)
      else if flag.isSwitch then do return (← o.set flag on, rest)
      else
        match rest with
        | [] => .error (.missingValue arg)
        | value :: rest => do return (← o.set flag value, rest)

/-- What stands before the options of a test run. Those are not for this program. -/
def testMark : Bytes := "test."

/-- Reads the letters of an argument that starts with one dash, and returns the arguments after
it. Letters from the mark of a test run on are left out. -/
def readLetters (flags : List Flag) (o : Options) (rest : List Bytes) :
    Bytes → Except OptionError (Options × List Bytes)
  | [] => .ok (o, rest)
  | c :: more =>
    if testMark.isPrefixOf (c :: more) then .ok (o, rest)
    else match flags.find? fun f => f.letter? = some c with
    | none => .error (.unknownLetter c (c :: more))
    | some flag =>
      if 1 < more.length && more.head? = some (Bytes.ofChar '=') then do
        return (← o.set flag more.tail, rest)
      else if flag.isSwitch then
        match o.set flag on with
        | .ok o => readLetters flags o rest more
        | .error e => .error e
      else if !more.isEmpty then do return (← o.set flag more, rest)
      else
        match rest with
        | [] => .error (.missingLetterValue c [c])
        | value :: rest => do return (← o.set flag value, rest)

/-- Whether an argument sets an option. -/
def isFlag (arg : Bytes) : Bool := arg.head? = some (Bytes.ofChar '-') && 1 < arg.length

/-- Reads arguments into options and operands, within so many steps. Two dashes end the options. -/
def readWithin (flags : List Flag) : Nat → Options → List Bytes → List Bytes →
    Except OptionError (Options × List Bytes)
  | 0, o, operands, _ => .ok (o, operands)
  | _ + 1, o, operands, [] => .ok (o, operands)
  | n + 1, o, operands, arg :: rest =>
    if !isFlag arg then readWithin flags n o (operands ++ [arg]) rest
    else if arg = Bytes.ofString "--" then .ok (o, operands ++ rest)
    else do
      let (o, rest) ←
        if (arg.drop 1).head? = some (Bytes.ofChar '-') then readLong flags o arg rest
        else readLetters flags o rest (arg.drop 1)
      readWithin flags n o operands rest

/-- Reads arguments into options and operands. -/
def read (flags : List Flag) (args : List Bytes) : Except OptionError (Options × List Bytes) :=
  readWithin flags args.length {} [] args

/-- Whether an argument is an option that has its value in the next argument. An option that is
not known is taken for one. -/
def takesNext (flags : List Flag) (arg : Bytes) : Bool :=
  let isLong := (Bytes.ofString "--").isPrefixOf arg
  let isSwitch (p : Flag → Bool) : Bool := (flags.find? p).any Flag.isSwitch
  if arg.contains (Bytes.ofChar '=') || arg.head? ≠ some (Bytes.ofChar '-') then false
  else
    (isLong && !isSwitch fun f => f.name = arg.drop 2) ||
      (arg.length = 2 && !isSwitch fun f => f.letter? = arg[1]?)

/-- The first operand among arguments, before it is known what options there are. The value of an
option counts as none unless it is the last argument. -/
def firstOperand? (flags : List Flag) : List Bytes → Option Bytes
  | [] => none
  | arg :: rest =>
    if arg = Bytes.ofString "--" then none
    else if takesNext flags arg then
      match rest with
      | _ :: next :: more => firstOperand? flags (next :: more)
      | _ => none
    else if arg.isEmpty || arg.head? = some (Bytes.ofChar '-') then firstOperand? flags rest
    else some arg

/-- The arguments without the first operand that is equal to `name`. -/
def dropOperand (flags : List Flag) (name : Bytes) : List Bytes → List Bytes
  | [] => []
  | arg :: rest =>
    if arg = Bytes.ofString "--" then arg :: rest
    else if takesNext flags arg then
      match rest with
      | value :: more => arg :: value :: dropOperand flags name more
      | [] => [arg]
    else if arg = name then rest
    else arg :: dropOperand flags name rest

/-- The command that arguments ask for, if any, with its options and operands. The word `help`
stands for the option, and what follows it is what help is wanted on. -/
def readCommand (args : List Bytes) :
    Except OptionError (Option Command × Options × List Bytes) :=
  let general := Flag.help :: Flag.common
  match firstOperand? Flag.common args with
  | none => do
    let (o, operands) ← read general args
    return (none, o, operands)
  | some name =>
    match Command.ofName? name with
    | none =>
      if name = Flag.help.name then do
        let (o, operands) ← read general (dropOperand Flag.common name args)
        return (none, { o with help := true }, operands)
      else .error (.unknownCommand name)
    | some command => do
      let flags := Flag.help :: command.flags ++ Flag.common
      let (o, operands) ← read flags (dropOperand Flag.common name args)
      return (some command, o, operands)

end Options

end AvroIdl
