import AvroIdl.Text.Bytes

/-!
# Paths

Names of files, with parts that are divided by slashes.
-/

namespace AvroIdl

namespace Path

def slash : UInt8 := Bytes.ofChar '/'

/-- The part that stands for the directory itself. -/
def here : Bytes := "."

/-- The part that stands for the directory above. -/
def up : Bytes := ".."

/-- Whether a path starts at the root. -/
def isAbsolute (p : Bytes) : Bool := p.head? = some slash

/-- Adds a part after others, which stand last first. A step up takes away the part before it. The
root has nothing above it. -/
def step (rooted : Bool) (parts : List Bytes) (part : Bytes) : List Bytes :=
  if part.isEmpty || part = here then parts
  else if part = up then
    match parts with
    | [] => if rooted then [] else [part]
    | last :: rest => if last = up then part :: parts else rest
  else part :: parts

/-- The shortest path to the same place. -/
def clean (p : Bytes) : Bytes :=
  let rooted := isAbsolute p
  let parts := ((p.splitOn slash).foldl (step rooted) []).reverse
  if rooted then slash :: Bytes.joinWith [slash] parts
  else if parts.isEmpty then here
  else Bytes.joinWith [slash] parts

/-- The directory that a path lies in. -/
def directory (p : Bytes) : Bytes :=
  clean ((p.lastIndexOf? slash).elim [] fun i => p.take (i + 1))

/-- The paths that end before a slash of a path, the longest first. -/
def above (p : Bytes) : List Bytes :=
  ((List.range p.length).filter fun i => p[i]? = some slash).reverse.map p.take

/-- The path that leads from a directory along another path. -/
def join (dir p : Bytes) : Bytes :=
  if !dir.isEmpty then clean (dir ++ slash :: p)
  else if !p.isEmpty then clean p
  else []

/-- The end of the last part of a path, from its last dot on. -/
def extension (p : Bytes) : Bytes :=
  let last := (p.lastIndexOf? slash).elim p fun i => p.drop (i + 1)
  (last.lastIndexOf? (Bytes.ofChar '.')).elim [] fun i => last.drop i

end Path

end AvroIdl
