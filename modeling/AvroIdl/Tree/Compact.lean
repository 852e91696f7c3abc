import AvroIdl.Tree

/-!
# Compaction

An arena keeps counting the nodes of earlier generations and of attempts that failed. Compaction
copies a tree into an arena of its own, in which its nodes are numbered anew, children first.
-/

namespace AvroIdl

namespace Element

mutual

/-- A copy of an element in an arena. -/
def copy (arena : Arena) : Element → Arena × Element
  | leaf t => (arena.addLeaf, leaf t)
  | node l children =>
    let (arena, children) := copyAll arena children
    (arena.addNode, node { l with id := arena.nodes + 1 } children)

/-- Copies of elements in an arena, from left to right. -/
def copyAll (arena : Arena) : List Element → Arena × List Element
  | [] => (arena, [])
  | e :: rest =>
    let (arena, e) := e.copy arena
    let (arena, rest) := copyAll arena rest
    (arena, e :: rest)

end

end Element

namespace Tree

/-- The tree in an arena that holds nothing else. -/
def compact (t : Tree) : Tree :=
  let (arena, children) := Element.copyAll {} t.children
  { t with arena := arena.addNode, label := { t.label with id := arena.nodes + 1 }, children }

/-- Whether an arena is large and holds at least four times as many nodes as the tree. -/
def isSparse (t : Tree) : Bool := 1024 ≤ t.arena.slots && 4 * t.reachable ≤ t.arena.slots

end Tree

end AvroIdl
