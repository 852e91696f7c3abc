import AvroIdl.Proofs.Symbol.Table
import AvroIdl.Resolution.Cache

/-!
# What references can mean

A reference means types that are declared in the tables of its scope: `Reference.resolve_visible`.
-/

namespace AvroIdl

/-- The types that a result names. -/
def Resolution.symbols : Resolution → List Symbol
  | .resolved s => [s]
  | .ambiguous found => found
  | .unresolved | .primitive _ => []

theorem Resolution.symbols_of_pick? {found : List Symbol} {r : Resolution}
    (h : pick? found = some r) : r.symbols = found := by
  match found with
  | [] => contradiction
  | [s] => obtain rfl := Option.some.inj h; rfl
  | a :: b :: rest => obtain rfl := Option.some.inj h; rfl

theorem eraseDupsBy_sublist {α : Type} (r : α → α → Bool) (as : List α) :
    (as.eraseDupsBy r).Sublist as := by
  induction size : as.length using Nat.strongRecOn generalizing as with
  | ind n ih =>
    match as with
    | [] => exact .slnil
    | a :: rest =>
      rw [List.eraseDupsBy_cons]
      have fewer := List.length_filter_le (fun b => decide (r b a = false)) rest
      rw [List.length_cons] at size
      exact .cons_cons a ((ih _ (by omega) _ rfl).trans List.filter_sublist)

/-- What is left out is like something that is kept. -/
theorem exists_mem_eraseDupsBy {α : Type} {r : α → α → Bool} (refl : ∀ a, r a a = true) {a : α}
    {as : List α} (mem : a ∈ as) : ∃ b ∈ as.eraseDupsBy r, r a b = true := by
  induction size : as.length using Nat.strongRecOn generalizing as with
  | ind n ih =>
    match as with
    | c :: rest =>
      rw [List.eraseDupsBy_cons]
      by_cases like : r a c = true
      · exact ⟨c, List.mem_cons_self, like⟩
      · have later : a ∈ rest := (List.mem_cons.mp mem).resolve_left fun eq => like (eq ▸ refl a)
        have fewer := List.length_filter_le (fun b => decide (r b c = false)) rest
        have left : a ∈ rest.filter fun b => decide (r b c = false) :=
          List.mem_filter.mpr ⟨later, by simpa using like⟩
        rw [List.length_cons] at size
        obtain ⟨b, kept, same⟩ := ih _ (by omega) left rfl
        exact ⟨b, .tail _ kept, same⟩

/-- Tables that are told apart by their serial numbers are all kept. -/
theorem mem_eraseDupsBy_serial {ts : List Table} {t : Table}
    (told : ∀ a ∈ ts, ∀ b ∈ ts, a.serial = b.serial → a = b) :
    t ∈ ts.eraseDupsBy (fun a b => a.serial == b.serial) ↔ t ∈ ts := by
  refine ⟨fun mem => (eraseDupsBy_sublist _ _).subset mem, fun mem => ?_⟩
  obtain ⟨b, kept, same⟩ := exists_mem_eraseDupsBy
    (r := fun a b : Table => a.serial == b.serial) (fun a => beq_self_eq_true _) mem
  rwa [told t mem b ((eraseDupsBy_sublist _ _).subset kept) (beq_iff_eq.mp same)]

theorem Scope.mem_distinctImports {s : Scope} {t : Table} (h : t ∈ s.distinctImports) :
    t ∈ s.imports :=
  (eraseDupsBy_sublist _ _).subset h

namespace Table

theorem Sound.mem_of_lookup {t : Table} (h : t.Sound) {name : Bytes} {s : Symbol}
    (mem : s ∈ t.lookup name) : s ∈ t.symbols := by
  rw [h.byName, types] at mem
  exact (List.mem_filter.mp (List.mem_filter.mp mem).1).1

theorem Sound.mem_of_lookupSimple {t : Table} (h : t.Sound) {name : Bytes} {s : Symbol}
    (mem : s ∈ t.lookupSimple name) : s ∈ t.symbols := by
  rw [h.bySimple, types] at mem
  exact (List.mem_filter.mp (List.mem_filter.mp mem).1).1

end Table

namespace Reference

/-- What the own table has for a search, and what the imported ones have. -/
def finds (scope : Scope) (find : Table → List Symbol) : List (List Symbol) :=
  [find scope.own, scope.distinctImports.flatMap find]

/-- What each search for a reference finds, in the order in which they are made. -/
def tiers (r : Reference) (scope : Scope) : List (List Symbol) :=
  (r.fullNames.flatMap fun n => finds scope (·.lookup n)) ++
    if r.isQualified then [] else finds scope (·.lookupSimple r.name)

theorem search?_eq (scope : Scope) (find : Table → List Symbol) :
    search? scope find = (finds scope find).findSome? Resolution.pick? := by
  cases own : Resolution.pick? (find scope.own) <;>
    cases imported : Resolution.pick? (scope.distinctImports.flatMap find) <;>
    simp [search?, finds, own, imported]

/-- The first search that finds anything decides. -/
theorem resolve_eq (r : Reference) (scope : Scope) :
    r.resolve scope =
      if !r.isQualified && Primitive.isPrimitive r.name then .primitive r.name
      else ((r.tiers scope).findSome? Resolution.pick?).getD .unresolved := by
  have byName (names : List Bytes) :
      (names.findSome? fun n => search? scope (·.lookup n)) =
        (names.flatMap fun n => finds scope (·.lookup n)).findSome? Resolution.pick? := by
    induction names with
    | nil => rfl
    | cons n rest ih =>
      rw [List.findSome?_cons, List.flatMap_cons, List.findSome?_append, search?_eq, ih]
      cases (finds scope (·.lookup n)).findSome? Resolution.pick? <;> rfl
  unfold resolve
  rw [byName, tiers, List.findSome?_append]
  split_ifs <;> simp [search?_eq]

/-- What a reference means was found by one of the searches. -/
theorem symbols_mem_tiers (r : Reference) (scope : Scope) {s : Symbol}
    (mem : s ∈ (r.resolve scope).symbols) : (r.resolve scope).symbols ∈ r.tiers scope := by
  rw [resolve_eq] at mem ⊢
  split_ifs at mem ⊢
  · contradiction
  · cases found : (r.tiers scope).findSome? Resolution.pick? with
    | none =>
      rw [found] at mem
      contradiction
    | some result =>
      obtain ⟨tier, here, picked⟩ := List.exists_of_findSome?_eq_some found
      rw [Option.getD_some, Resolution.symbols_of_pick? picked]
      exact here

theorem visible_of_finds {scope : Scope} {find : Table → List Symbol} {tier : List Symbol}
    {s : Symbol} (h : tier ∈ finds scope find) (mem : s ∈ tier) :
    ∃ t ∈ scope.visible, s ∈ find t := by
  simp only [finds, List.mem_cons, List.not_mem_nil, or_false] at h
  rcases h with rfl | rfl
  · exact ⟨scope.own, List.mem_cons_self, mem⟩
  · obtain ⟨t, imported, mem⟩ := List.mem_flatMap.mp mem
    exact ⟨t, .tail _ (Scope.mem_distinctImports imported), mem⟩

/-- What a reference means is declared in its scope, with a name that the reference stands for. -/
theorem resolve_found (r : Reference) {scope : Scope} (sound : ∀ t ∈ scope.visible, t.Sound) :
    ∀ s ∈ (r.resolve scope).symbols, ∃ t ∈ scope.visible, s ∈ t.symbols ∧
      (s.name ∈ r.fullNames ∨ r.isQualified = false ∧ s.simpleName = r.name) := by
  intro s mem
  have tier := r.symbols_mem_tiers scope mem
  rw [tiers] at tier
  rcases List.mem_append.mp tier with tier | tier
  · obtain ⟨n, full, tier⟩ := List.mem_flatMap.mp tier
    obtain ⟨t, visible, mem⟩ := visible_of_finds tier mem
    have declared := (sound t visible).mem_of_lookup mem
    rw [(sound t visible).byName] at mem
    have named : s.name = n := by simpa using (List.mem_filter.mp mem).2
    exact ⟨t, visible, declared, .inl (named ▸ full)⟩
  · split_ifs at tier with qualified
    · contradiction
    · obtain ⟨t, visible, mem⟩ := visible_of_finds tier mem
      have declared := (sound t visible).mem_of_lookupSimple mem
      rw [(sound t visible).bySimple] at mem
      have named : s.simpleName = r.name := by simpa using (List.mem_filter.mp mem).2
      exact ⟨t, visible, declared, .inr ⟨by simpa using qualified, named⟩⟩

/-- What a reference means is declared in its scope. -/
theorem resolve_visible (r : Reference) {scope : Scope} (sound : ∀ t ∈ scope.visible, t.Sound) :
    ∀ s ∈ (r.resolve scope).symbols, ∃ t ∈ scope.visible, s ∈ t.symbols := by
  intro s mem
  obtain ⟨t, visible, declared, -⟩ := r.resolve_found sound s mem
  exact ⟨t, visible, declared⟩

end Reference

end AvroIdl
