import AvroIdl.Gather
import AvroIdl.Span

/-!
# Import graphs

Which document imports which, by import statement, the cycles among them, and which member of a
cycle reports it.
-/

namespace AvroIdl

/-- One import statement and the document that it names. -/
structure ImportEdge where
  target : Bytes
  span : Span
  deriving DecidableEq, Repr

/-- The import statements of each document, in order. -/
abbrev ImportGraph := List (Bytes × List ImportEdge)

namespace ImportGraph

/-- The import statements of a document. -/
def edges (g : ImportGraph) (uri : Bytes) : List ImportEdge := (g.lookup uri).getD []

/-- The documents that a document imports. -/
def targets (g : ImportGraph) (uri : Bytes) : List Bytes := (g.edges uri).map (·.target)

/-- The documents that import a document. -/
def sources (g : ImportGraph) (uri : Bytes) : List Bytes :=
  (g.filter fun (_, edges) => edges.any fun e => e.target = uri).map (·.1)

/-- The documents that a document imports, directly or through others. -/
def descendants (g : ImportGraph) (uri : Bytes) : List Bytes :=
  gather g.targets (g.flatMap fun (_, edges) => edges.map (·.target)).eraseDups (g.targets uri)

/-- The documents that import a document, directly or through others. -/
def ancestors (g : ImportGraph) (uri : Bytes) : List Bytes :=
  gather g.sources (g.map (·.1)).eraseDups (g.sources uri)

/-- The documents that lie on an import cycle with a document. -/
def members (g : ImportGraph) (uri : Bytes) : List Bytes :=
  let back := g.ancestors uri
  (g.descendants uri).filter back.contains

/-- The place of the first statement by which one document imports another. -/
def edgeSpan? (g : ImportGraph) (source target : Bytes) : Option Span :=
  ((g.edges source).find? fun e => e.target = target).map (·.span)

/-- The shortest way back to `start` from the ends of the ways in `pending`, through documents that
remain. A way is its last document with those before it, the last first. -/
def closeCycle? (g : ImportGraph) (start : Bytes) (remaining : List Bytes)
    (pending : List (Bytes × List Bytes)) : Option (List Bytes) :=
  match _found : pending.find? fun way => remaining.contains way.1 with
  | none => none
  | some (u, before) =>
    let way := u :: before
    if (g.targets u).contains start then some ((start :: way).reverse)
    else closeCycle? g start (remaining.erase u)
      (pending ++ (g.targets u).map fun v => (v, way))
termination_by remaining.length
decreasing_by
  have member : u ∈ remaining := List.contains_iff_mem.mp (by simpa using List.find?_some _found)
  have smaller := List.length_erase_of_mem member
  have positive := List.length_pos_of_mem member
  omega

/-- The shortest cycle through a document, from it and back to it, within `members`. -/
def shortestCycle? (g : ImportGraph) (start : Bytes) (members : List Bytes) :
    Option (List Bytes) :=
  g.closeCycle? start (start :: members.erase start) [(start, [])]

end ImportGraph

/-- The least of some names. -/
def least? : List Bytes → Option Bytes
  | [] => none
  | a :: rest => some (rest.foldl (fun m b => if b.before m then b else m) a)

/-- The member of a cycle that reports it: the least one among the reporters, or the least of all
if none of them is a reporter. -/
def reporterOf (members reporters : List Bytes) : Bytes :=
  match least? (members.filter reporters.contains) with
  | some u => if u.isEmpty then (least? members).getD [] else u
  | none => (least? members).getD []

end AvroIdl
