/-!
# Reachability

`gather` follows edges from node to node, in the order of their distance. Each node that it finds
leaves the finite set of those that remain, so cycles do no harm.
-/

namespace AvroIdl

variable {α : Type} [DecidableEq α]

/-- The members of `remaining` that can be reached from `pending`, the nearest first. -/
def gather (next : α → List α) (remaining pending : List α) : List α :=
  match _found : pending.find? remaining.contains with
  | none => []
  | some u => u :: gather next (remaining.erase u) (pending ++ next u)
termination_by remaining.length
decreasing_by
  have member : u ∈ remaining := List.contains_iff_mem.mp (List.find?_some _found)
  have smaller := List.length_erase_of_mem member
  have positive := List.length_pos_of_mem member
  omega

end AvroIdl
