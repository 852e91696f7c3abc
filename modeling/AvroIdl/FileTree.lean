import AvroIdl.Path

/-!
# Files

Texts by path. The directories above a file exist with it, and they stay when it is removed. A path
can have both a text and files below it: it is then a directory.
-/

namespace AvroIdl

/-- What is kept at a path. -/
structure FileEntry where
  text : Bytes := []
  isDirectory : Bool := false
  deriving DecidableEq, Repr

/-- Files and directories by their shortest paths. -/
structure FileTree where
  entries : List (Bytes × FileEntry) := [([Path.slash], { isDirectory := true })]
  deriving DecidableEq, Repr

namespace FileTree

/-- The name under which the file at a path is kept. The root stands for the current directory and
for the one above it. -/
def key (path : Bytes) : Bytes :=
  let p := Path.clean path
  if p = Path.here || p = Path.up then [Path.slash] else p

/-- What is kept at a path. -/
def entry? (t : FileTree) (path : Bytes) : Option FileEntry := t.entries.lookup (key path)

/-- Whether a path leads to a directory. -/
def isDirectory (t : FileTree) (path : Bytes) : Bool := (t.entry? path).any (·.isDirectory)

/-- What is read at a path. A directory reads as what was written under its name, mostly nothing. -/
def read? (t : FileTree) (path : Bytes) : Option Bytes := (t.entry? path).map (·.text)

/-- The text of the file at a path. A directory is no file. -/
def file? (t : FileTree) (path : Bytes) : Option Bytes :=
  (t.entry? path).bind fun e => if e.isDirectory then none else some e.text

/-- The files with their texts. -/
def files (t : FileTree) : List (Bytes × Bytes) :=
  t.entries.filterMap fun (path, e) => if e.isDirectory then none else some (path, e.text)

/-- Removes what is kept at a path. What lies below it stays. -/
def remove (t : FileTree) (path : Bytes) : FileTree :=
  { entries := t.entries.filter fun e => e.1 ≠ key path }

/-- Puts an entry in the place of what was there. -/
def put (t : FileTree) (path : Bytes) (entry : FileEntry) : FileTree :=
  { entries := (key path, entry) :: (t.remove path).entries }

/-- Makes the first of some paths a directory. If nothing was there, so becomes the next, which it
lies in. -/
def makeDirectories (t : FileTree) : List Bytes → FileTree
  | [] => t
  | path :: above =>
    match t.entry? path with
    | some e => t.put path { e with isDirectory := true }
    | none => makeDirectories (t.put path { isDirectory := true }) above

/-- Adds an entry at a path where nothing was. What it lies in becomes a directory. -/
def add (t : FileTree) (path : Bytes) (entry : FileEntry) : FileTree :=
  (t.put path entry).makeDirectories (Path.above (key path) ++ [[Path.slash]])

/-- Writes a text. It takes the place of the one before it. -/
def write (t : FileTree) (path text : Bytes) : FileTree :=
  match t.entry? path with
  | some e => t.put path { e with text }
  | none => t.add path { text }

/-- Adds a directory where nothing was. -/
def addDirectory (t : FileTree) (path : Bytes) : FileTree :=
  if (t.entry? path).isSome then t else t.add path { isDirectory := true }

end FileTree

end AvroIdl
