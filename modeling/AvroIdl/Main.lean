import AvroIdl.Command

/-!
# The command line program

Reads the files that a command asks for, runs it, and carries out what it leaves behind.
-/

namespace AvroIdl

namespace Program

/-- The text of a file, if it can be read. -/
def readFile? (path : Bytes) : IO (Option Bytes) := do
  match path.toString? with
  | none => return none
  | some name =>
    try
      let data ← IO.FS.readBinFile name
      return some data.data.toList
    catch _ => return none

/-- Adds files to a session until it knows all that a command line looks for. -/
partial def prepare (s : Session) (args tried : List Bytes) : IO Session := do
  let wanted := (s.lookups args).eraseDups.filter fun path => !tried.contains path
  if wanted.isEmpty then return s
  let mut files := s.files
  for path in wanted do
    if let some text ← readFile? path then files := files.write path text
  prepare { s with files } args (wanted ++ tried)

/-- Writes the files that a command changed. -/
def writeFiles (before after : FileTree) : IO Unit := do
  for (path, text) in after.files do
    if before.file? path ≠ some text then
      if let some name := path.toString? then IO.FS.writeBinFile name ⟨text.toArray⟩

/-- The variables of the environment that settings are read from. -/
def environment : IO (List (Bytes × Bytes)) := do
  let mut found := []
  for (name, _) in Config.settings do
    if let some text := name.toString? then
      if let some value ← IO.getEnv text then found := (name, Bytes.ofString value) :: found
  return found

def write (stream : IO.FS.Stream) (text : Bytes) : IO Unit := do
  stream.write ⟨text.toArray⟩
  stream.flush

end Program

end AvroIdl

open AvroIdl in
def main (args : List String) : IO UInt32 := do
  let args := args.map Bytes.ofString
  let env ← Program.environment
  let directory := Bytes.ofString (← IO.currentDir).toString
  let s ← Program.prepare { files := {}, env := fun name => env.lookup name, directory } args []
  let r := s.run args
  Program.writeFiles s.files r.files
  Program.write (← IO.getStdout) r.report.out
  Program.write (← IO.getStderr) r.report.err
  return if r.report.failed then 1 else 0
