import AvroIdl.Proofs.Resolution.Search
import AvroIdl.Proofs.Symbol.Identity
import Mathlib.Data.List.Perm.Basic

/-!
# The order of imports

What a search finds are declarations, each in its table. A table that is imported twice is searched
once, and no table lists a declaration twice, so that the declarations depend on the set of imported
tables alone: `Lookup.found_perm`. The first step that finds anything decides, and it decides for a
declaration just if it finds no other: `Reference.resolve_imports`.
-/

namespace AvroIdl

namespace Resolution

/-- The built-in type that is meant. -/
def primitive? : Resolution → Option Bytes
  | primitive name => some name
  | _ => none

/-- The one type that is meant. -/
def symbol? : Resolution → Option Symbol
  | resolved s => some s
  | _ => none

/-- The types of which one may be meant. -/
def candidates : Resolution → List Symbol
  | ambiguous found => found
  | _ => []

theorem pick?_eq_none {found : List Symbol} : pick? found = none ↔ found = [] := by
  match found with
  | [] | [_] | _ :: _ :: _ => simp [pick?]

theorem pick?_eq_resolved {found : List Symbol} {s : Symbol} :
    pick? found = some (resolved s) ↔ found = [s] := by
  match found with
  | [] | [_] | _ :: _ :: _ => simp [pick?]

theorem pick?_eq_ambiguous {found found' : List Symbol} :
    pick? found = some (ambiguous found') ↔ found' = found ∧ 2 ≤ found.length := by
  match found with
  | [] | [_] | _ :: _ :: _ => simp [pick?, eq_comm]

/-- Two results say the same, up to the order of candidates. -/
structure Alike (a b : Resolution) : Prop where
  status : a.status = b.status
  primitive : a.primitive? = b.primitive?
  symbol : a.symbol? = b.symbol?
  candidates : a.candidates.Perm b.candidates

theorem Alike.refl (a : Resolution) : a.Alike a := ⟨rfl, rfl, rfl, .refl _⟩

/-- The first search that finds anything decides, in whatever order it finds what it finds. -/
theorem alike_of_perm {tiers tiers' : List (List Symbol)} (same : List.Forall₂ List.Perm tiers tiers') :
    Alike ((tiers.findSome? pick?).getD .unresolved) ((tiers'.findSome? pick?).getD .unresolved) := by
  induction same with
  | nil => exact .refl _
  | @cons xs ys _ _ here _ ih =>
    match xs with
    | [] =>
      obtain rfl := here.nil_eq
      exact ih
    | [s] =>
      obtain rfl := List.singleton_perm.mp here
      exact .refl _
    | a :: b :: more =>
      match ys, here.length_eq with
      | c :: d :: more', _ => exact ⟨rfl, rfl, rfl, here⟩

end Resolution

/-- What is kept differs from all that is kept before it. -/
theorem pairwise_eraseDupsBy {α : Type} (r : α → α → Bool) (as : List α) :
    (as.eraseDupsBy r).Pairwise fun a b => r b a = false := by
  induction size : as.length using Nat.strongRecOn generalizing as with
  | ind n ih =>
    match as with
    | [] => exact .nil
    | a :: rest =>
      rw [List.eraseDupsBy_cons]
      have fewer := List.length_filter_le (fun b => decide (r b a = false)) rest
      rw [List.length_cons] at size
      refine .cons (fun b mem => ?_) (ih _ (by omega) _ rfl)
      have kept := (eraseDupsBy_sublist _ _).subset mem
      exact of_decide_eq_true (List.mem_filter.mp kept).2

/-- A step of a search: the tables that are searched, and the types that are accepted. -/
structure Lookup where
  tables : List Table
  accepts : Symbol → Bool

namespace Lookup

/-- Whether a declaration in a table is one that the step finds. -/
def Matches (l : Lookup) (t : Table) (o : Symbol) : Prop :=
  t ∈ l.tables ∧ o ∈ t.types ∧ l.accepts o = true

/-- The declarations that the step finds. -/
def found (l : Lookup) : List (Table × Symbol) :=
  (l.tables.eraseDupsBy fun a b => a.serial == b.serial).flatMap fun t =>
    (t.types.filter l.accepts).map (t, ·)

/-- The tables that are searched are those of documents, and told apart by their serial numbers. -/
structure Proper (l : Lookup) : Prop where
  genuine : ∀ t ∈ l.tables, t.Genuine
  told : ∀ a ∈ l.tables, ∀ b ∈ l.tables, a.serial = b.serial → a = b

variable {l l' : Lookup} {t : Table} {o : Symbol}

theorem mem_found (h : l.Proper) : (t, o) ∈ l.found ↔ l.Matches t o := by
  simp only [found, List.mem_flatMap, List.mem_map, Prod.mk.injEq, Matches,
    mem_eraseDupsBy_serial h.told]
  constructor
  · rintro ⟨t, table, o, mem, rfl, rfl⟩
    exact ⟨table, List.mem_filter.mp mem⟩
  · rintro ⟨table, accepted⟩
    exact ⟨t, table, o, List.mem_filter.mpr accepted, rfl, rfl⟩

/-- No declaration is found twice. -/
theorem nodup_found (h : l.Proper) : l.found.Nodup := by
  refine List.nodup_flatMap.mpr ⟨fun t kept => ?_, ?_⟩
  · have genuine := h.genuine t ((eraseDupsBy_sublist _ _).subset kept)
    exact (genuine.nodup_types.filter _).map fun _ _ same => (Prod.mk.inj same).2
  · refine (pairwise_eraseDupsBy _ _).imp fun {a b} differ => ?_
    rintro ⟨t, o⟩ left right
    obtain ⟨_, -, here⟩ := List.mem_map.mp left
    obtain ⟨_, -, there⟩ := List.mem_map.mp right
    rw [(Prod.mk.inj here).1, (Prod.mk.inj there).1] at differ
    simp at differ

/-- What is found depends on the set of tables alone. -/
theorem found_perm (h : l.Proper) (h' : l'.Proper) (same : ∀ t o, l.Matches t o ↔ l'.Matches t o) :
    l.found.Perm l'.found := by
  refine (List.perm_ext_iff_of_nodup (nodup_found h) (nodup_found h')).mpr ?_
  rintro ⟨t, o⟩
  rw [mem_found h, mem_found h', same]

/-- The first of some steps that finds anything. -/
def First (steps : List Lookup) (l : Lookup) : Prop :=
  ∃ before after, steps = before ++ l :: after ∧ (∀ m ∈ before, ∀ t o, ¬ m.Matches t o) ∧
    ∃ t o, l.Matches t o

theorem found_eq_nil (h : l.Proper) : l.found = [] ↔ ∀ t o, ¬ l.Matches t o := by
  simp [List.eq_nil_iff_forall_not_mem, mem_found h]

theorem found_eq_singleton (h : l.Proper) :
    l.found = [(t, o)] ↔ ∀ t' o', l.Matches t' o' ↔ t' = t ∧ o' = o := by
  rw [← List.perm_singleton, List.perm_ext_iff_of_nodup (nodup_found h) (List.nodup_singleton _)]
  simp [mem_found h]

/-- The first step that finds anything decides. -/
theorem findSome?_eq_some {steps : List Lookup} (h : ∀ l ∈ steps, l.Proper) {r : Resolution} :
    (steps.map fun l => l.found.map Prod.snd).findSome? Resolution.pick? = some r ↔
      ∃ l, First steps l ∧ Resolution.pick? (l.found.map Prod.snd) = some r := by
  have passes (m : Lookup) (mem : m ∈ steps) :
      Resolution.pick? (m.found.map Prod.snd) = none ↔ ∀ t o, ¬ m.Matches t o := by
    rw [Resolution.pick?_eq_none, List.map_eq_nil_iff, found_eq_nil (h m mem)]
  rw [List.findSome?_map, List.findSome?_eq_some_iff]
  constructor
  · rintro ⟨before, l, after, rfl, picked, passed⟩
    refine ⟨l, ⟨before, after, rfl, fun m mem => ?_, ?_⟩, picked⟩
    · exact (passes m (by simp [mem])).mp (passed m mem)
    · by_contra none
      have none := (passes l (by simp)).mpr fun t o here => none ⟨t, o, here⟩
      exact absurd (none.symm.trans picked) (by simp)
  · rintro ⟨l, ⟨before, after, rfl, passed, -⟩, picked⟩
    exact ⟨before, l, after, rfl, picked, fun m mem =>
      (passes m (by simp [mem])).mpr (passed m mem)⟩

end Lookup

/-- The visible tables are those of documents, and the imported ones are told apart by their serial
numbers. -/
structure Scope.Genuine (s : Scope) : Prop where
  tables : ∀ t ∈ s.visible, t.Genuine
  told : ∀ a ∈ s.imports, ∀ b ∈ s.imports, a.serial = b.serial → a = b

theorem Scope.Genuine.sound {s : Scope} (h : s.Genuine) : ∀ t ∈ s.visible, t.Sound :=
  fun t mem => (h.tables t mem).sound

theorem Scope.Genuine.lookup {s : Scope} (h : s.Genuine) (accepts : Symbol → Bool) :
    Lookup.Proper ⟨s.imports, accepts⟩ :=
  ⟨fun t mem => h.tables t (.tail _ mem), h.told⟩

namespace Reference

/-- The steps of the search for what a reference means, in their order. -/
def lookups (r : Reference) (scope : Scope) : List Lookup :=
  let both (accepts : Symbol → Bool) : List Lookup := [⟨[scope.own], accepts⟩, ⟨scope.imports, accepts⟩]
  (r.fullNames.flatMap fun name => both fun o => o.name = name) ++
    if r.isQualified then [] else both fun o => o.simpleName = r.name

/-- Whether a reference means a built-in type. -/
def isBuiltIn (r : Reference) : Bool := !r.isQualified && Primitive.isPrimitive r.name

variable {r : Reference} {scope : Scope}

theorem tables_of_lookups {l : Lookup} (mem : l ∈ r.lookups scope) :
    l.tables = [scope.own] ∨ l.tables = scope.imports := by
  have both (accepts : Symbol → Bool)
      (mem : l ∈ [⟨[scope.own], accepts⟩, (⟨scope.imports, accepts⟩ : Lookup)]) :
      l.tables = [scope.own] ∨ l.tables = scope.imports := by
    simp only [List.mem_cons, List.not_mem_nil, or_false] at mem
    rcases mem with rfl | rfl
    · exact .inl rfl
    · exact .inr rfl
  rcases List.mem_append.mp mem with mem | mem
  · obtain ⟨name, -, mem⟩ := List.mem_flatMap.mp mem
    exact both _ mem
  · split_ifs at mem
    · contradiction
    · exact both _ mem

theorem proper_lookups (h : scope.Genuine) : ∀ l ∈ r.lookups scope, l.Proper := by
  intro l mem
  obtain ⟨tables, accepts⟩ := l
  rcases tables_of_lookups mem with rfl | rfl
  · refine ⟨fun t here => ?_, fun a ha b hb _ => ?_⟩
    · rw [List.mem_singleton.mp here]
      exact h.tables _ List.mem_cons_self
    · rw [List.mem_singleton.mp ha, List.mem_singleton.mp hb]
  · exact h.lookup accepts

/-- The searches are the steps. -/
theorem tiers_eq_lookups (sound : ∀ t ∈ scope.visible, t.Sound) :
    r.tiers scope = (r.lookups scope).map fun l => l.found.map Prod.snd := by
  have both {find : Table → List Symbol} {accepts : Symbol → Bool}
      (finds : ∀ t ∈ scope.visible, find t = t.types.filter accepts) :
      Reference.finds scope find =
        [(⟨[scope.own], accepts⟩ : Lookup), ⟨scope.imports, accepts⟩].map
          fun l => l.found.map Prod.snd := by
    have each (tables : List Table) (visible : ∀ t ∈ tables, t ∈ scope.visible) :
        (tables.flatMap fun t => (t.types.filter accepts).map (t, ·)).map Prod.snd =
          tables.flatMap find := by
      rw [List.map_flatMap]
      refine List.flatMap_congr fun t mem => ?_
      simp [finds t (visible t mem), Function.comp_def]
    have own : (⟨[scope.own], accepts⟩ : Lookup).found.map Prod.snd = find scope.own := by
      refine (each [scope.own] fun t mem => ?_).trans (List.flatMap_singleton ..)
      rw [List.mem_singleton.mp mem]
      exact List.mem_cons_self
    have imported : (⟨scope.imports, accepts⟩ : Lookup).found.map Prod.snd =
        scope.distinctImports.flatMap find :=
      each scope.distinctImports fun t mem => .tail _ (Scope.mem_distinctImports mem)
    rw [Reference.finds, List.map_cons, List.map_singleton, own, imported]
  rw [tiers, lookups, List.map_append, List.map_flatMap]
  congr 1
  · exact List.flatMap_congr fun name _ => both fun t mem => (sound t mem).byName name
  · split_ifs
    · rfl
    · exact both fun t mem => (sound t mem).bySimple r.name

/-- What a reference means, by the steps of the search. -/
theorem resolve_eq_lookups (sound : ∀ t ∈ scope.visible, t.Sound) :
    r.resolve scope = if r.isBuiltIn then .primitive r.name
      else (((r.lookups scope).map fun l => l.found.map Prod.snd).findSome? Resolution.pick?).getD
        .unresolved := by
  rw [resolve_eq, tiers_eq_lookups sound]
  rfl

/-- A type is meant, or several may be, just if the first step that finds anything decides so. -/
theorem resolve_eq_iff (h : scope.Genuine) {result : Resolution}
    (found : result ≠ .unresolved ∧ ∀ name, result ≠ .primitive name) :
    r.resolve scope = result ↔ r.isBuiltIn = false ∧
      ∃ l, Lookup.First (r.lookups scope) l ∧
        Resolution.pick? (l.found.map Prod.snd) = some result := by
  rw [resolve_eq_lookups h.sound, ← Lookup.findSome?_eq_some (proper_lookups h)]
  generalize ((r.lookups scope).map fun l => l.found.map Prod.snd).findSome? Resolution.pick? = first
  cases r.isBuiltIn with
  | true => simpa using (found.2 r.name).symm
  | false =>
    cases first with
    | none => simpa using found.1.symm
    | some other => simp

variable {scope' : Scope}

/-- The steps find the same declarations, whatever the order of the imported tables. -/
theorem alike_resolve (r : Reference) (h : scope.Genuine) (own : scope'.own = scope.own)
    (same : ∀ t, t ∈ scope'.imports ↔ t ∈ scope.imports) :
    (r.resolve scope).Alike (r.resolve scope') := by
  have h' : scope'.Genuine := by
    refine ⟨fun t mem => h.tables t ?_, fun a ha b hb => ?_⟩
    · simpa [Scope.visible, own, same] using mem
    · exact h.told a ((same a).mp ha) b ((same b).mp hb)
  have both (accepts : Symbol → Bool) : List.Forall₂ (fun l l' : Lookup => l.found.Perm l'.found)
      [⟨[scope.own], accepts⟩, ⟨scope.imports, accepts⟩]
      [⟨[scope'.own], accepts⟩, ⟨scope'.imports, accepts⟩] := by
    rw [own]
    refine .cons (.refl _) (.cons ?_ .nil)
    exact Lookup.found_perm (h.lookup accepts) (h'.lookup accepts) fun t o =>
      and_congr_left' (same t).symm
  have steps : List.Forall₂ (fun l l' : Lookup => l.found.Perm l'.found)
      (r.lookups scope) (r.lookups scope') := by
    refine List.rel_append ?_ ?_
    · induction r.fullNames with
      | nil => exact .nil
      | cons name rest ih => exact List.rel_append (both _) ih
    · split_ifs
      · exact .nil
      · exact both _
  rw [resolve_eq_lookups h.sound, resolve_eq_lookups h'.sound]
  split_ifs
  · exact .refl _
  · refine Resolution.alike_of_perm ?_
    rw [List.forall₂_map_left_iff, List.forall₂_map_right_iff]
    exact steps.imp fun _ _ found => found.map _

/-- What a reference means depends on the set of imported tables alone, and neither on their order
nor on how often each is listed. A type is meant just if it is the one declaration that is found by
the first step which finds anything. Where that step finds several, they are the candidates, each
listed once. -/
theorem resolve_imports (r : Reference) (scope scope' : Scope) (genuine : scope.Genuine)
    (own : scope'.own = scope.own) (same : ∀ t, t ∈ scope'.imports ↔ t ∈ scope.imports) :
    let a := r.resolve scope
    let b := r.resolve scope'
    a.status = b.status ∧ a.primitive? = b.primitive? ∧ a.symbol? = b.symbol? ∧
      a.candidates.Perm b.candidates ∧
      (∀ o, a = .resolved o ↔ r.isBuiltIn = false ∧
        ∃ l t, Lookup.First (r.lookups scope) l ∧ ∀ t' o', l.Matches t' o' ↔ t' = t ∧ o' = o) ∧
      ∀ candidates, a = .ambiguous candidates →
        ∃ (l : Lookup) (decls : List (Table × Symbol)), Lookup.First (r.lookups scope) l ∧
          candidates = decls.map Prod.snd ∧ 2 ≤ decls.length ∧ decls.Nodup ∧
            ∀ t o, (t, o) ∈ decls ↔ l.Matches t o := by
  intro a b
  obtain ⟨status, primitive, symbol, candidates⟩ := alike_resolve r genuine own same
  have proper {l : Lookup} (first : Lookup.First (r.lookups scope) l) : l.Proper := by
    obtain ⟨before, after, split, -⟩ := first
    exact proper_lookups (r := r) genuine l (by simp [split])
  refine ⟨status, primitive, symbol, candidates, fun o => ?_, fun found ambiguous => ?_⟩
  · rw [show a = .resolved o ↔ _ from resolve_eq_iff genuine (by simp)]
    refine and_congr_right fun _ => exists_congr fun l => ?_
    rw [exists_and_left]
    refine and_congr_right fun first => ?_
    rw [Resolution.pick?_eq_resolved, List.map_eq_singleton_iff]
    simp only [Prod.exists, ← Lookup.found_eq_singleton (proper first)]
    simp
  · obtain ⟨-, l, first, picked⟩ := (resolve_eq_iff genuine (by simp)).mp ambiguous
    obtain ⟨rfl, several⟩ := Resolution.pick?_eq_ambiguous.mp picked
    rw [List.length_map] at several
    exact ⟨l, l.found, first, rfl, several, Lookup.nodup_found (proper first), fun t o =>
      Lookup.mem_found (proper first)⟩

/-- Two documents declare a record, and the first one is imported twice. -/
theorem resolve_imports_repeated :
    let a := Table.ofTree 1 "/a.avdl" (Tree.parse "record X \x7b\x7d")
    let b := Table.ofJsonText 2 "/b.avsc" "\x7b\"type\": \"record\", \"name\": \"X\"\x7d" 1
    let own := Table.ofTree 3 "/c.avdl" (Tree.parse "")
    let r : Reference :=
      { name := "X", nameSpace := [], node := 1, span := ⟨0, 1⟩, nameSpan := ⟨0, 1⟩, errorsOnly := false }
    let scope : Scope := { own, imports := [a, b, a] }
    let scope' : Scope := { own, imports := [b, a] }
    scope.Genuine ∧ scope'.own = scope.own ∧ (∀ t, t ∈ scope'.imports ↔ t ∈ scope.imports) ∧
      (r.resolve scope).candidates.map Symbol.uri = ["/a.avdl", "/b.avsc"] ∧
      (r.resolve scope').candidates.map Symbol.uri = ["/b.avsc", "/a.avdl"] ∧
      (r.resolve scope).candidates.Perm (r.resolve scope').candidates := by
  intro a b own r scope scope'
  have idl (serial : Nat) (uri text : Bytes) : (Table.ofTree serial uri (Tree.parse text)).Genuine :=
    .tree serial uri (Tree.parseIn_lossless _ _ _)
  have differ : a.serial ≠ b.serial := by
    rw [show a.serial = 1 from (Table.of_ofTree ..).serial,
      show b.serial = 2 from (Table.of_ofJsonText ..).serial]
    decide
  have genuine : scope.Genuine := by
    constructor
    · simp only [Scope.visible, scope, List.mem_cons, List.not_mem_nil, or_false]
      rintro t (rfl | rfl | rfl | rfl)
      · exact idl ..
      · exact idl ..
      · exact .json ..
      · exact idl ..
    · simp only [scope, List.mem_cons, List.not_mem_nil, or_false]
      rintro t (rfl | rfl | rfl) t' (rfl | rfl | rfl) same
      all_goals first | rfl | exact absurd same differ | exact absurd same.symm differ
  have same (t : Table) : t ∈ scope'.imports ↔ t ∈ scope.imports := by
    simp only [scope, scope', List.mem_cons, List.not_mem_nil, or_false]
    tauto
  obtain ⟨-, -, -, candidates, -⟩ := resolve_imports r scope scope' genuine rfl same
  exact ⟨genuine, rfl, same, by decide +kernel, by decide +kernel, candidates⟩

end Reference

end AvroIdl
