import AvroIdl.Document
import AvroIdl.Proofs.Resolution.Stamp
import Mathlib.Data.List.Induction
import Mathlib.Data.List.Nodup

/-!
# The cache of resolutions

A cache is asked for what the references of documents mean, and told to forget documents. If a URI
and a generation stand for one table, and no imported URI passes for two, it answers every time
what would be found anew: `Cache.resolve_after`. A URI that passes for two documents gets the
answer that belongs to them: `Cache.resolve_merged_uri`.
-/

namespace AvroIdl

/-- What is remembered of a scope. -/
def Scope.entry (s : Scope) : CacheEntry := ⟨s.own.uri, s.stamp, s.resolveAll⟩

namespace Cache

/-- The cache remembers what it is asked for, and nothing else. -/
theorem entries_resolve (c : Cache) (scope : Scope) :
    ∀ e ∈ (c.resolve scope).1.entries, e ∈ c.entries ∨ e = scope.entry := by
  have refreshed : ∀ e ∈ (c.refresh scope).1.entries, e ∈ c.entries ∨ e = scope.entry := by
    intro e mem
    rcases List.mem_cons.mp mem with rfl | mem
    · exact .inr rfl
    · exact .inl (List.mem_filter.mp mem).1
  intro e mem
  unfold resolve at mem
  split at mem
  next =>
    split_ifs at mem
    · exact .inl mem
    · exact refreshed e mem
  next => exact refreshed e mem

/-- Results that were remembered for scopes of a document are given for scopes like them. -/
theorem resolve_eq_of_own {c : Cache} {scope : Scope}
    (h : ∀ e ∈ c.entries, e.uri = scope.own.uri → e.stamp = scope.stamp →
      e.results = scope.resolveAll) :
    (c.resolve scope).2 = scope.resolveAll := by
  unfold resolve
  split
  next e found =>
    split_ifs with same
    · have own : e.uri = scope.own.uri := by simpa using List.find?_some found
      exact h e (List.mem_of_find?_eq_some found) own same
    · rfl
  next => rfl

theorem resolve_eq {c : Cache} {scope : Scope}
    (h : ∀ e ∈ c.entries, e.stamp = scope.stamp → e.results = scope.resolveAll) :
    (c.resolve scope).2 = scope.resolveAll :=
  resolve_eq_of_own fun e mem _ same => h e mem same

/-- What a cache is asked to do. -/
inductive Call where
  | resolve (scope : Scope)
  | invalidate (uri : Bytes)

/-- The cache after a call. -/
def call (c : Cache) : Call → Cache
  | .resolve scope => (c.resolve scope).1
  | .invalidate uri => c.invalidate uri

/-- A new cache after some calls. -/
def after (calls : List Call) : Cache := calls.foldl call {}

/-- The scopes that some calls ask about. -/
def scopes (calls : List Call) : List Scope :=
  calls.filterMap fun
    | .resolve scope => some scope
    | .invalidate _ => none

/-- After any calls, a cache remembers only what it was asked for. -/
theorem entries_after (calls : List Call) :
    ∀ e ∈ (after calls).entries, ∃ s ∈ scopes calls, e = s.entry := by
  induction calls using List.reverseRecOn with
  | nil => exact nofun
  | append_singleton calls c ih =>
    intro e mem
    rw [after, List.foldl_concat] at mem
    have known : e ∈ (after calls).entries → ∃ s ∈ scopes (calls ++ [c]), e = s.entry := by
      intro mem
      obtain ⟨s, asked, eq⟩ := ih e mem
      exact ⟨s, by simp only [scopes, List.filterMap_append, List.mem_append]; exact .inl asked, eq⟩
    cases c with
    | resolve scope =>
      rcases entries_resolve _ scope e mem with mem | eq
      · exact known mem
      · exact ⟨scope, by simp [scopes], eq⟩
    | invalidate uri => exact known (List.mem_filter.mp mem).1

/-- After any calls, a cache answers what would be found anew, if two tables with the same URI and
generation are always the same, and no imported URI passes for two documents. -/
theorem resolve_after (calls : List Call) (scope : Scope)
    (one : ∀ s ∈ scope :: scopes calls, ∀ s' ∈ scope :: scopes calls, ∀ t ∈ s.visible,
      ∀ t' ∈ s'.visible, t.uri = t'.uri → t.generation = t'.generation → t = t')
    (plain : ∀ s ∈ scope :: scopes calls, ∀ t ∈ s.imports, Scope.Plain t.uri) :
    ((after calls).resolve scope).2 = scope.resolveAll := by
  apply resolve_eq_of_own
  intro e remembered own same
  obtain ⟨s, asked, rfl⟩ := entries_after calls e remembered
  have known : s ∈ scope :: scopes calls := .tail _ asked
  have first : scope ∈ scope :: scopes calls := List.mem_cons_self
  obtain ⟨versions, pending⟩ :=
    Scope.stamp_inj_of_own own (plain s known) (plain scope first) same
  have eq : s = scope := Scope.eq_of_versions (one s known scope first) versions pending
  rw [eq]
  rfl

/-- The table of an IDL text. -/
def tableOf (serial : Nat) (uri text : Bytes) (generation : UInt64 := 1) : Table :=
  (Document.read serial uri .idl text { generation }).table

/-- A document is asked about with two generations of its import, is forgotten, and is asked about
again with the older one. -/
theorem resolve_after_changes :
    let own := tableOf 0 "/a.avdl" "record A { B b; }"
    let old := tableOf 1 "/b.avdl" "record B { }"
    let new := tableOf 2 "/b.avdl" "record C { }" 2
    let calls : List Call :=
      [.resolve { own, imports := [old] }, .resolve { own, imports := [new] }, .invalidate "/a.avdl",
        .resolve { own, imports := [new], pending := true }]
    let scope : Scope := { own, imports := [old] }
    (∀ s ∈ scope :: scopes calls, ∀ t ∈ s.imports, Scope.Plain t.uri) ∧
      ((after calls).resolve scope).2 = scope.resolveAll ∧
      scope.resolveAll.map Resolution.status = ["resolved"] := by
  intro own old new calls scope
  have visible : ∀ s ∈ scope :: scopes calls, ∀ t ∈ s.visible, t ∈ [own, old, new] := by
    simp [scope, scopes, calls, Scope.visible]
  have plain : ∀ s ∈ scope :: scopes calls, ∀ t ∈ s.imports, Scope.Plain t.uri := by
    have none : ∀ t ∈ [own, old, new], (0x3b : UInt8) ∉ t.uri := by decide +kernel
    intro s known t imported
    apply Scope.plain_of_not_mem
    exact none t (visible s known t (.tail _ imported))
  have versions : ([own, old, new].map Scope.versionOf).Nodup := by decide +kernel
  refine ⟨plain, resolve_after calls scope ?_ plain, by decide +kernel⟩
  intro s known s' known' t ht t' ht' uri generation
  exact List.inj_on_of_nodup_map versions (visible s known t ht) (visible s' known' t' ht')
    (Prod.ext uri generation)

/-- The imports `/b.avdl` and `/c.avdl`, both of generation one, have the same stamp as one import
whose URI joins them. A type of the first is found through the second, which does not declare it. -/
theorem resolve_merged_uri :
    let own := tableOf 0 "/a.avdl" "record A { B b; }"
    let two := [tableOf 1 "/b.avdl" "record B { }", tableOf 2 "/c.avdl" "record C { }"]
    let merged := tableOf 3 "/b.avdl@1;/c.avdl" "record D { }"
    let calls : List Call := [.resolve { own, imports := two }]
    ((own :: merged :: two).map Table.uri).Nodup ∧
      ((after calls).resolve { own, imports := [merged] }).2.map Resolution.status = ["resolved"] ∧
      ({ own, imports := [merged] } : Scope).resolveAll = [.unresolved] := by
  decide +kernel

end Cache

end AvroIdl
