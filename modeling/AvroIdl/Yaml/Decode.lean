import AvroIdl.Yaml.Value

/-!
# Values of YAML nodes

A part of a document counts each time that an alias stands for it. A document that is almost all
aliases is refused.
-/

namespace AvroIdl.Yaml

/-- How many parts have been visited, and how many of them at aliases. -/
structure Tally where
  all : Nat := 0
  repeated : Nat := 0
  deriving DecidableEq, Repr

/-- Whether almost all parts have been visited at aliases. -/
def Tally.isExcessive (t : Tally) : Bool :=
  100 < t.repeated && 1000 < t.all && 99 * t.all < 100 * t.repeated

/-- A step of finding values, which fails where there is none. -/
abbrev Decode := StateT Tally Option

namespace Decode

/-- Counts a visit. -/
def visit (atAlias : Bool) : Decode Unit := do
  let t ← get
  let t : Tally := { all := t.all + 1, repeated := if atAlias then t.repeated + 1 else t.repeated }
  guard !t.isExcessive
  set t

/-- A place in a document. -/
structure Place where
  node : Node
  /-- Whether it is part of what an alias stands for. -/
  atAlias : Bool := false

/-- Visits a place, and the one that an alias there stands for. -/
def enter (p : Place) : Decode Place := do
  visit p.atAlias
  match p.node with
  | .alias _ target =>
    let node ← target
    visit true
    return { node, atAlias := true }
  | _ => return p

/-- The value of the scalar at a place, if it has one. -/
def scalar? {α : Type} (read? : Bytes → Value → Option α) (p : Place) : Decode (Option α) := do
  match (← enter p).node with
  | .scalar tag text =>
    let v ← Value.ofScalar? tag text
    if v = .null then return none else return some (← read? text v)
  | _ => failure

/-- The values of the items at a place. Those without one are left out, and no value is no items. -/
def items {α : Type} (read? : Bytes → Value → Option α) (p : Place) : Decode (List α) := do
  let p ← enter p
  match p.node with
  | .scalar tag text =>
    guard (Value.ofScalar? tag text = some .null)
    return []
  | .sequence nodes =>
    let found ← nodes.mapM fun node => scalar? read? { p with node }
    return found.filterMap id
  | _ => failure

end Decode

/-- Whether two keys are told apart by neither their kind nor their text. -/
def Node.isSameKey : Node → Node → Bool
  | .scalar _ s, .scalar _ t => s = t
  | .alias s _, .alias t _ => s = t
  | .sequence _, .sequence _ => true
  | .mapping _, .mapping _ => true
  | _, _ => false

/-- Whether a mapping takes in others under a key. -/
def Node.isMerge : Node → Bool
  | .scalar tag text => tag = some mergeTag && text = mergeText
  | _ => false

/-- Whether no two of some keys are the same. -/
def Node.areDistinct : List Node → Bool
  | [] => true
  | key :: rest => !rest.any key.isSameKey && areDistinct rest

end AvroIdl.Yaml
