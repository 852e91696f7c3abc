import AvroIdl.Yaml.Decode

/-!
# Settings in YAML

A document of settings is one mapping. Under a merge key it takes in others for what it does not set
itself.
-/

namespace AvroIdl.Yaml

/-- What a setting does with the values that a document gives it. -/
abbrev Setter (σ : Type) := σ → Decode.Place → Decode σ

/-- What is known while the entries of a mapping are applied. -/
structure Settings (σ : Type) where
  state : σ
  /-- The names that this mapping has set. -/
  done : List Bytes := []
  /-- The names that mappings around this one have set, if it is taken in by one. -/
  outer : Option (List Bytes) := none

namespace Settings

open Decode

/-- The name that a key spells, if it has a value. -/
def name? (p : Place) : Decode (Option Bytes) := scalar? (fun text v => some (v.textOf text)) p

/-- Applies one entry. An entry without a name is left out, and so is one that an outer mapping
sets. -/
def applyEntry {σ : Type} (setters : List (Bytes × Setter σ)) (atAlias : Bool) (s : Settings σ)
    (entry : Node × Node) : Decode (Settings σ) := do
  if entry.1.isMerge then return s
  else
    match ← name? { node := entry.1, atAlias } with
    | none => return s
    | some name =>
      if (s.outer.getD []).contains name then return s
      else
        guard !s.done.contains name
        let set ← setters.lookup name
        let state ← set s.state { node := entry.2, atAlias }
        return { state, done := name :: s.done, outer := s.outer.map (name :: ·) }

/-- The names that a mapping with a merge key sets, the merge key among them. -/
def outerNames (atAlias : Bool) (entries : List (Node × Node)) : Decode (List Bytes) := do
  let names ← entries.mapM fun entry => name? { node := entry.1, atAlias }
  return names.filterMap id

/-- What is taken in under a merge key. -/
def mergedNodes : Node → List Node
  | .sequence nodes => nodes
  | node => [node]

/-- Applies the mapping at a place to settings, within so many steps. -/
def applyWithin {σ : Type} (setters : List (Bytes × Setter σ)) :
    Nat → Settings σ → Place → Decode (Settings σ)
  | 0, _, _ => failure
  | n + 1, s, p => do
    let p ← enter p
    match p.node with
    | .mapping entries =>
      guard (Node.areDistinct (entries.map (·.1)))
      let s ← entries.foldlM (applyEntry setters p.atAlias) { s with done := [] }
      match entries.find? fun entry => entry.1.isMerge with
      | none => return s
      | some (_, node) =>
        let outer ← match s.outer with
          | some names => pure names
          | none => outerNames p.atAlias entries
        let inner ← (mergedNodes node).foldlM (fun s node => applyWithin setters n s { p with node })
          { s with outer := some outer }
        return { inner with outer := s.outer.bind fun _ => inner.outer }
    | _ => failure

/-- Applies a document to settings. One without a value changes nothing. -/
def applyDocument {σ : Type} (setters : List (Bytes × Setter σ)) (size : Nat) (state : σ)
    (root : Node) : Decode σ := do
  visit false
  match root with
  | .scalar tag text =>
    guard (Value.ofScalar? tag text = some .null)
    return state
  | _ => return (← applyWithin setters size { state } { node := root }).state

end Settings

end AvroIdl.Yaml
