import AvroIdl.Proofs.Check.Codes
import AvroIdl.Proofs.Symbol.Identity
import Mathlib.Data.List.Perm.Basic

/-!
# Names that are declared more than once

A table finds the types with a name in the order of their declarations, and flags each type whose
name is declared more than once, with all other declarations of the name: `Table.Faithful`. This holds
of the table of every document, `Table.faithful_tables`. Declarations are told apart by their positions:
two that look alike are still two.
-/

namespace AvroIdl

namespace Table

/-- The types of a list with a position and the name of the one at that position, but for that one. -/
def rivals (types : List Symbol) (position : Symbol × Nat) : List Symbol :=
  (types.eraseIdx position.2).filter fun o => o.name = position.1.name

/-- A problem flags a type in a list: it stands at the name of the type, and relates the names of its
rivals. -/
structure Flags (types : List Symbol) (d : Diagnostic) (position : Symbol × Nat) : Prop where
  uri : d.uri = position.1.uri
  span : d.span = position.1.nameSpan
  related : d.related.map (fun r => (r.uri, r.span)) =
    (rivals types position).map fun o => (o.uri, o.nameSpan)

/-- A table finds by full name and by simple name what it declares, in order, and flags the types
whose full names are declared at least twice, one by one and in order. -/
structure Faithful (t : Table) : Prop where
  lookup : ∀ name, t.lookup name = t.types.filter fun s => s.name = name
  lookupSimple : ∀ name, t.lookupSimple name = t.types.filter fun s => s.simpleName = name
  flagged : List.Forall₂ (Flags t.types) (t.diagnostics.filter fun d => d.code = 3000)
    (t.types.zipIdx.filter fun position =>
      2 ≤ t.types.countP fun o => o.name = position.1.name)

theorem forall₂_filterMap_filter {α β : Type} {R : β → α → Prop} {f : α → Option β} {p : α → Bool}
    {as : List α} (kept : ∀ a ∈ as, p a = true → ∃ b, f a = some b ∧ R b a)
    (dropped : ∀ a ∈ as, p a = false → f a = none) :
    List.Forall₂ R (as.filterMap f) (as.filter p) := by
  induction as with
  | nil => exact .nil
  | cons a rest ih =>
    have ih := ih (fun b mem => kept b (.tail _ mem)) (fun b mem => dropped b (.tail _ mem))
    cases keep : p a with
    | true =>
      obtain ⟨b, made, related⟩ := kept a List.mem_cons_self keep
      rw [List.filterMap_cons_some made, List.filter_cons_of_pos keep]
      exact .cons related ih
    | false =>
      rw [List.filterMap_cons_none (dropped a List.mem_cons_self keep),
        List.filter_cons_of_neg (by simp [keep])]
      exact ih

section

variable {types : List Symbol} {position : Symbol × Nat}

/-- Among types that all differ, the rivals of one are those with its name that differ from it. -/
theorem rivals_eq (nodup : types.Nodup) (mem : position ∈ types.zipIdx) :
    rivals types position =
      (types.filter fun o => o.name = position.1.name).filter (· ≠ position.1) := by
  obtain ⟨here, same⟩ := List.getElem?_eq_some_iff.mp (List.mem_zipIdx_iff_getElem?.mp mem)
  have others : types.eraseIdx position.2 = types.filter (· ≠ position.1) := by
    rw [← nodup.erase_getElem _ here, nodup.erase_eq_filter, same]
    exact List.filter_congr fun o _ => by by_cases h : o = position.1 <;> simp [h]
  rw [rivals, others, List.filter_comm]

/-- A type has rivals just if its name is declared at least twice. -/
theorem rivals_eq_nil_iff (mem : position ∈ types.zipIdx) :
    rivals types position = [] ↔ ¬ 2 ≤ types.countP fun o => o.name = position.1.name := by
  obtain ⟨here, same⟩ := List.getElem?_eq_some_iff.mp (List.mem_zipIdx_iff_getElem?.mp mem)
  have all : (rivals types position).length + 1 =
      types.countP fun o => o.name = position.1.name := by
    rw [← (List.getElem_cons_eraseIdx_perm here).countP_eq,
      List.countP_cons_of_pos (by simp [same]), List.countP_eq_length_filter, rivals]
  rw [← List.length_eq_zero_iff]
  omega

end

variable {t : Table}

/-- Where a table finds what it declares and all its types differ, what it reports flags the types
whose names are declared more than once. -/
theorem flagged_duplicates (sound : t.Sound) (nodup : t.types.Nodup) :
    List.Forall₂ (Flags t.types) t.duplicates
      (t.types.zipIdx.filter fun position =>
        2 ≤ t.types.countP fun o => o.name = position.1.name) := by
  have others {position : Symbol × Nat} (mem : position ∈ t.types.zipIdx) :
      (t.lookup position.1.name).filter (· ≠ position.1) = rivals t.types position := by
    rw [sound.byName, rivals_eq nodup mem]
  have each : t.duplicates = (t.types.zipIdx.map Prod.fst).filterMap fun s =>
      let others := (t.lookup s.name).filter (· ≠ s)
      if others.isEmpty then none else some (duplicateDeclaration s others) := by
    rw [List.zipIdx_map_fst]
    rfl
  rw [each, List.filterMap_map]
  refine forall₂_filterMap_filter (fun position mem repeated => ?_) fun position mem once => ?_
  · have some : ¬ (rivals t.types position).isEmpty = true := by
      rw [List.isEmpty_iff, rivals_eq_nil_iff mem, not_not]
      exact of_decide_eq_true repeated
    refine ⟨duplicateDeclaration position.1 (rivals t.types position), ?_, rfl, rfl, ?_⟩
    · rw [Function.comp_apply, others mem, if_neg some]
    · simp [duplicateDeclaration]
  · have none : (rivals t.types position).isEmpty = true := by
      rw [List.isEmpty_iff, rivals_eq_nil_iff mem]
      exact of_decide_eq_false once
    rw [Function.comp_apply, others mem, if_pos none]

/-- A table that reports its duplicates, or that declares nothing and reports none, is faithful to its declarations. -/
theorem Genuine.faithful (genuine : t.Genuine)
    (reports : t.diagnostics.filter (fun d => d.code = 3000) = t.duplicates) : t.Faithful := by
  refine ⟨genuine.sound.byName, genuine.sound.bySimple, ?_⟩
  rw [reports]
  exact flagged_duplicates genuine.sound genuine.nodup_types

theorem filter_duplicates (t : Table) :
    t.duplicates.filter (fun d => d.code = 3000) = t.duplicates := by
  rw [List.filter_eq_self]
  intro d mem
  simpa using t.coded_duplicates d mem

/-- The tables of all documents are faithful to their declarations: those of IDL, however it was edited,
and those of JSON. -/
theorem faithful_tables (serial : Nat) (uri text : Bytes) (arena : Arena) (opts : ParseOptions)
    (steps : List Revision) (generation : UInt64) :
    (ofTree serial uri ((Tree.parseIn arena opts text).revisions steps)).Faithful ∧
      (ofJsonText serial uri text generation).Faithful := by
  constructor
  · have lossless := (Tree.revisions_lossless (Tree.parseIn_lossless arena opts text) steps).1
    exact (Genuine.tree serial uri lossless).faithful (filter_duplicates _)
  · refine (Genuine.json serial uri text generation).faithful ?_
    unfold ofJsonText
    cases Json.read? text with
    | none => simp [unreadable, duplicates, types]
    | some root => exact filter_duplicates _

-- Two types come to one full name by different routes. The protocol with that name is no type.
example :
    let text : Bytes := "@namespace(\"x\") protocol R \x7b record R \x7b\x7d fixed x.R(1); \x7d"
    ((ofTree 1 [] (Tree.parse text)).diagnostics.map fun d => (d.span, d.related.map (·.span))) =
      [(⟨36, 1⟩, [⟨49, 1⟩]), (⟨49, 1⟩, [⟨36, 1⟩])] := by
  decide +kernel

end Table

end AvroIdl
