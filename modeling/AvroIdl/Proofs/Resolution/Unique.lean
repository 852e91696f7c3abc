import AvroIdl.Proofs.Resolution.Search
import Mathlib.Data.List.Flatten
import Mathlib.Data.List.Nodup

/-!
# Names that are declared once

Where the visible tables declare each full name once, a search means a type if it accepts this type
and no other visible one: `Reference.search?_resolved`. Where it accepts none, the next search
decides: `Reference.search?_none`.
-/

namespace AvroIdl

namespace Scope

/-- All visible types. -/
def types (s : Scope) : List Symbol := s.visible.flatMap Table.types

/-- The visible tables find what they declare, are told apart by their serial numbers, and declare
each full name once. -/
structure Distinct (s : Scope) : Prop where
  sound : ∀ t ∈ s.visible, t.Sound
  told : ∀ a ∈ s.imports, ∀ b ∈ s.imports, a.serial = b.serial → a = b
  names : (s.types.map Symbol.name).Nodup

variable {s : Scope}

theorem mem_distinctImports_iff (h : s.Distinct) {t : Table} :
    t ∈ s.distinctImports ↔ t ∈ s.imports :=
  mem_eraseDupsBy_serial h.told

/-- The visible types, each table once. -/
def searched (s : Scope) : List Symbol := s.own.types ++ s.distinctImports.flatMap Table.types

theorem mem_searched (h : s.Distinct) {o : Symbol} : o ∈ s.searched ↔ o ∈ s.types := by
  simp only [searched, types, visible, List.mem_append, List.flatMap_cons, List.mem_flatMap,
    mem_distinctImports_iff h]

theorem nodup_searched (h : s.Distinct) : s.searched.Nodup := by
  refine List.Nodup.sublist ?_ h.names.of_map
  rw [types, visible, List.flatMap_cons]
  exact .append_left (List.Sublist.flatMap (eraseDupsBy_sublist _ _) _) _

end Scope

theorem filter_eq_singleton {α : Type} {p : α → Bool} {a : α} {as : List α} (nodup : as.Nodup)
    (mem : a ∈ as) (accepted : p a = true) (only : ∀ b ∈ as, p b = true → b = a) :
    as.filter p = [a] := by
  induction as with
  | nil => contradiction
  | cons c rest ih =>
    obtain ⟨fresh, nodup⟩ := List.nodup_cons.mp nodup
    have others := fun b later => only b (.tail c later)
    by_cases here : p c = true
    · obtain rfl := only c List.mem_cons_self here
      rw [List.filter_cons_of_pos here, List.filter_eq_nil_iff.mpr]
      exact fun b later found => fresh (others b later found ▸ later)
    · rw [List.filter_cons_of_neg here]
      refine ih nodup ((List.mem_cons.mp mem).resolve_left fun eq => here (eq ▸ accepted)) others

namespace Reference

variable {scope : Scope} {find : Table → List Symbol} {accepts : Symbol → Bool}

/-- The two parts of a search, taken together. -/
theorem filter_searched (finds : ∀ t ∈ scope.visible, find t = t.types.filter accepts) :
    scope.searched.filter accepts = find scope.own ++ scope.distinctImports.flatMap find := by
  have imported : scope.distinctImports.flatMap find =
      (scope.distinctImports.flatMap Table.types).filter accepts := by
    rw [List.filter_flatMap]
    refine List.flatMap_congr fun t mem => finds t ?_
    exact .tail _ (Scope.mem_distinctImports mem)
  rw [Scope.searched, List.filter_append, imported, finds scope.own List.mem_cons_self]

/-- A search that accepts no visible type decides nothing. -/
theorem search?_none (h : scope.Distinct) (accepts : Symbol → Bool)
    (finds : ∀ t ∈ scope.visible, find t = t.types.filter accepts)
    (refused : ∀ o ∈ scope.types, accepts o = false) : search? scope find = none := by
  have nothing : scope.searched.filter accepts = [] := by
    rw [List.filter_eq_nil_iff]
    intro o mem
    simp [refused o ((Scope.mem_searched h).mp mem)]
  rw [filter_searched finds, List.append_eq_nil_iff] at nothing
  rw [search?, nothing.1, nothing.2]
  rfl

/-- A search that accepts one visible type means it. -/
theorem search?_resolved (h : scope.Distinct) (accepts : Symbol → Bool)
    (finds : ∀ t ∈ scope.visible, find t = t.types.filter accepts) {o : Symbol}
    (mem : o ∈ scope.types) (accepted : accepts o = true)
    (only : ∀ o' ∈ scope.types, accepts o' = true → o' = o) :
    search? scope find = some (.resolved o) := by
  have found := filter_eq_singleton (Scope.nodup_searched h) ((Scope.mem_searched h).mpr mem) accepted
    fun o' mem => only o' ((Scope.mem_searched h).mp mem)
  rw [filter_searched finds, List.append_eq_singleton_iff] at found
  rcases found with ⟨own, imported⟩ | ⟨own, imported⟩ <;> rw [search?, own, imported] <;> rfl

/-- A full name means the one type that it is declared for. -/
theorem search?_lookup (h : scope.Distinct) {o : Symbol} (mem : o ∈ scope.types) :
    search? scope (·.lookup o.name) = some (.resolved o) := by
  refine search?_resolved h (fun s => s.name = o.name) (fun t visible => (h.sound t visible).byName _)
    mem (by simp) fun o' mem' same => ?_
  exact List.inj_on_of_nodup_map h.names mem' mem (of_decide_eq_true same)

theorem search?_lookup_none (h : scope.Distinct) {name : Bytes}
    (unknown : ∀ o ∈ scope.types, o.name ≠ name) : search? scope (·.lookup name) = none :=
  search?_none h (fun s => s.name = name) (fun t visible => (h.sound t visible).byName _)
    fun o mem => decide_eq_false (unknown o mem)

/-- A simple name means the one type that has it. -/
theorem search?_lookupSimple (h : scope.Distinct) {o : Symbol} (mem : o ∈ scope.types)
    (alone : ∀ o' ∈ scope.types, o' ≠ o → o'.simpleName ≠ o.simpleName) :
    search? scope (·.lookupSimple o.simpleName) = some (.resolved o) := by
  refine search?_resolved h (fun s => s.simpleName = o.simpleName)
    (fun t visible => (h.sound t visible).bySimple _) mem (by simp) fun o' mem' same => ?_
  by_contra other
  exact alone o' mem' other (of_decide_eq_true same)

variable {r : Reference}

/-- A reference that is not built in means the type whose full name is the first one that is
declared among those that it can stand for. -/
theorem resolve_of_fullName (h : scope.Distinct) {o : Symbol} (mem : o ∈ scope.types)
    (type : r.isQualified = true ∨ Primitive.isPrimitive r.name = false) {before after : List Bytes}
    (names : r.fullNames = before ++ o.name :: after)
    (unknown : ∀ name ∈ before, ∀ o ∈ scope.types, o.name ≠ name) :
    r.resolve scope = .resolved o := by
  have found : (r.fullNames.findSome? fun n => search? scope (·.lookup n)) = some (.resolved o) := by
    rw [names, List.findSome?_append, List.findSome?_eq_none_iff.mpr fun name early =>
      search?_lookup_none h (unknown name early), List.findSome?_cons, search?_lookup h mem]
    rfl
  have free : (!r.isQualified && Primitive.isPrimitive r.name) = false := by
    rcases type with type | type <;> simp [type]
  rw [resolve, if_neg (by simp [free]), found]
  rfl

/-- A reference none of whose full names is declared means the one type with its simple name. -/
theorem resolve_of_simpleName (h : scope.Distinct) {o : Symbol} (mem : o ∈ scope.types)
    (plain : r.isQualified = false) (type : Primitive.isPrimitive r.name = false)
    (unknown : ∀ name ∈ r.fullNames, ∀ o ∈ scope.types, o.name ≠ name) (named : r.name = o.simpleName)
    (alone : ∀ o' ∈ scope.types, o' ≠ o → o'.simpleName ≠ o.simpleName) :
    r.resolve scope = .resolved o := by
  have missed : (r.fullNames.findSome? fun n => search? scope (·.lookup n)) = none :=
    List.findSome?_eq_none_iff.mpr fun name among => search?_lookup_none h (unknown name among)
  rw [resolve, if_neg (by simp [type]), missed, named, if_neg (by simp [plain]),
    search?_lookupSimple h mem alone]
  rfl

end Reference

end AvroIdl
