import AvroIdl.Proofs.Project.Publication
import AvroIdl.Proofs.Resolution.Cache
import AvroIdl.Proofs.Resolution.Search
import Mathlib.Algebra.Group.Nat.Defs
import Mathlib.Data.List.Induction

/-!
# Asking old snapshots

All snapshots of a project share one cache of what references mean. A `Timeline` is a project with
the snapshots that were taken of it. The generations of a document count up as long as it is loaded,
but a document that was dropped starts at one again. Where none comes back, the cache gives for every
snapshot, old or new, what its own documents mean: `Timeline.resolve_eq_resolveAll`. Where one does,
results of the dropped document are given for the new one: `Timeline.resolve_after_return`.
-/

namespace AvroIdl

namespace Snapshot

theorem mem_of_reach {s : Snapshot} {uri : Bytes} {d : Document} (h : d ∈ s.reach uri) :
    d ∈ s.docs := by
  obtain ⟨u, -, found⟩ := List.mem_filterMap.mp h
  exact (mem_of_document? found).1

/-- What is visible from a document of a snapshot are documents of the snapshot. -/
theorem visible_scopeOf {s : Snapshot} {d : Document} (h : d ∈ s.docs) {t : Table}
    (visible : t ∈ (s.scopeOf d).visible) : ∃ e ∈ s.docs, e.table = t := by
  rcases List.mem_cons.mp visible with rfl | imported
  · exact ⟨d, h, rfl⟩
  · obtain ⟨e, reached, rfl⟩ := List.mem_map.mp imported
    exact ⟨e, mem_of_reach reached, rfl⟩

end Snapshot

/-- What can be asked of a project and of the snapshots that were taken of it, the newest of which
has the number zero. Loads end with any outcome. -/
inductive Event where
  | openDocument (uri text : Bytes)
  | update (uri : Bytes) (edit : Edit)
  | closeDocument (uri : Bytes)
  | refresh
  | finishLoad (key : LinkKey) (outcome : Except LoadError (Bytes × Bytes))
  | resolve (snapshot : Nat) (uri : Bytes)
  | references (snapshot : Nat)

/-- A project, and its snapshots before the last event, the newest first. -/
structure Timeline where
  project : Project
  earlier : List Snapshot := []

namespace Timeline

/-- All snapshots that were taken. -/
def taken (t : Timeline) : List Snapshot := t.project.now :: t.earlier

/-- All documents of these snapshots. -/
def seen (t : Timeline) : List Document := t.taken.flatMap Snapshot.docs

def snapshot (t : Timeline) (number : Nat) : Snapshot := t.taken[number]?.getD t.project.now

/-- The project after an event. -/
def after (t : Timeline) : Event → Project
  | .openDocument uri text => (t.project.openDocument uri text).1
  | .update uri edit => (t.project.update uri edit).1
  | .closeDocument uri => t.project.closeDocument uri
  | .refresh => t.project.refresh
  | .finishLoad key outcome => t.project.finishLoad key outcome
  | .resolve number uri =>
    { t.project with cache := ((t.snapshot number).resolve t.project.cache uri).1 }
  | .references number =>
    { t.project with cache := ((t.snapshot number).references t.project.cache).1 }

def step (t : Timeline) (e : Event) : Timeline := ⟨t.after e, t.taken⟩

/-- A new project after some events. -/
def run (options : ProjectOptions) (events : List Event) : Timeline :=
  events.foldl step { project := { options } }

/-- Whether no document comes back after it was dropped, in snapshots with the newest first. -/
def steady : List Snapshot → Bool
  | new :: old :: rest =>
    (new.docs.all fun d => old.holds d.uri || !rest.any (·.holds d.uri)) && steady (old :: rest)
  | _ => true

/-- Generations tell the documents of a URI apart, and each remembered result is that of a snapshot. -/
structure Consistent (t : Timeline) : Prop where
  indexed : ∀ d ∈ t.seen, d.Indexed
  counted : ∀ d ∈ t.seen, d.generation.toNat ≤ t.earlier.length
  newest : ∀ a ∈ t.seen, ∀ d ∈ t.project.now.docs, a.uri = d.uri → a.generation ≤ d.generation
  told : ∀ a ∈ t.seen, ∀ b ∈ t.seen, a.uri = b.uri → a.generation = b.generation → a = b
  remembered : ∀ e ∈ t.project.cache.entries, ∃ s ∈ t.taken, ∃ d ∈ s.docs, e = (s.scopeOf d).entry

variable {t : Timeline}

theorem mem_seen {d : Document} : d ∈ t.seen ↔ ∃ s ∈ t.taken, d ∈ s.docs := List.mem_flatMap

theorem seen_of_now {d : Document} (h : d ∈ t.project.now.docs) : d ∈ t.seen :=
  mem_seen.mpr ⟨_, List.mem_cons_self, h⟩

theorem snapshot_mem (t : Timeline) (number : Nat) : t.snapshot number ∈ t.taken := by
  unfold snapshot
  cases found : t.taken[number]? with
  | none => exact List.mem_cons_self
  | some s => exact List.mem_of_getElem? found

/-- Nothing new is seen when a project keeps to its documents. -/
theorem Consistent.keeps (h : t.Consistent) {p : Project}
    (docs : p.now.docs ⊆ t.project.now.docs)
    (remembered : ∀ e ∈ p.cache.entries, ∃ s ∈ t.taken, ∃ d ∈ s.docs, e = (s.scopeOf d).entry) :
    Consistent ⟨p, t.taken⟩ := by
  have known : ∀ d ∈ Timeline.seen ⟨p, t.taken⟩, d ∈ t.seen := by
    intro d mem
    obtain ⟨s, taken, mem⟩ := mem_seen.mp mem
    rcases List.mem_cons.mp taken with rfl | taken
    · exact seen_of_now (docs mem)
    · exact mem_seen.mpr ⟨s, taken, mem⟩
  refine ⟨fun d mem => h.indexed d (known d mem), fun d mem => ?_, ?_, ?_, ?_⟩
  · exact Nat.le_succ_of_le (h.counted d (known d mem))
  · exact fun a ha d hd => h.newest a (known a ha) d (docs hd)
  · exact fun a ha b hb => h.told a (known a ha) b (known b hb)
  · intro e mem
    obtain ⟨s, taken, d, held, eq⟩ := remembered e mem
    exact ⟨s, .tail _ taken, d, held, eq⟩

/-- The generation of a document that is published is later than all before it, unless the document
comes back. -/
theorem Consistent.later (h : t.Consistent) (few : t.earlier.length + 1 < 2 ^ 64) {d : Document}
    (follows : Project.Follows t.project.now.docs d)
    (stays : t.project.now.holds d.uri = true ∨ ∀ s ∈ t.earlier, s.holds d.uri = false) :
    d.generation.toNat ≤ t.earlier.length + 1 ∧
      ∀ a ∈ t.seen, a.uri = d.uri → a.generation < d.generation := by
  cases follows with
  | first fresh generation =>
    refine ⟨by rw [generation, UInt64.toNat_one]; omega, fun a mem same => ?_⟩
    obtain ⟨s, taken, held⟩ := mem_seen.mp mem
    rcases List.mem_cons.mp taken with rfl | taken
    · exact absurd same (fresh a held)
    · rcases stays with loaded | never
      · obtain ⟨e, found⟩ := Option.isSome_iff_exists.mp loaded
        obtain ⟨mem, here⟩ := Snapshot.mem_of_document? found
        exact absurd here (fresh e mem)
      · have held := Snapshot.holds_of_mem held
        rw [same, never s taken] at held
        contradiction
  | next old loaded uri generation =>
    have bound := h.counted old (seen_of_now loaded)
    have next : d.generation.toNat = old.generation.toNat + 1 := by
      rw [generation, UInt64.toNat_add, UInt64.toNat_one]
      exact Nat.mod_eq_of_lt (by omega)
    refine ⟨by omega, fun a mem same => ?_⟩
    have le := h.newest a mem old loaded (same.trans uri.symm)
    rw [UInt64.le_iff_toNat_le] at le
    rw [UInt64.lt_iff_toNat_lt]
    omega

/-- What is published is told apart from all that was seen before. -/
theorem Consistent.publishes (h : t.Consistent) (few : t.earlier.length + 1 < 2 ^ 64) {p : Project}
    {d : Document} (indexed : d.Indexed) (follows : Project.Follows t.project.now.docs d)
    (docs : ∀ e ∈ p.now.docs, e = d ∨ e ∈ t.project.now.docs ∧ e.uri ≠ d.uri)
    (entries : p.cache.entries ⊆ t.project.cache.entries)
    (stays : d ∈ p.now.docs →
      t.project.now.holds d.uri = true ∨ ∀ s ∈ t.earlier, s.holds d.uri = false) :
    Consistent ⟨p, t.taken⟩ := by
  by_cases held : d ∈ p.now.docs
  case neg =>
    -- The document was dropped at once.
    refine h.keeps (fun e mem => ?_) fun e mem => h.remembered e (entries mem)
    rcases docs e mem with rfl | ⟨mem, -⟩
    · contradiction
    · exact mem
  obtain ⟨count, later⟩ := h.later few follows (stays held)
  have known : ∀ a ∈ Timeline.seen ⟨p, t.taken⟩, a = d ∨ a ∈ t.seen := by
    intro a mem
    obtain ⟨s, taken, mem⟩ := mem_seen.mp mem
    rcases List.mem_cons.mp taken with rfl | taken
    · exact (docs a mem).imp_right fun ⟨mem, _⟩ => seen_of_now mem
    · exact .inr (mem_seen.mpr ⟨s, taken, mem⟩)
  refine ⟨fun a mem => ?_, fun a mem => ?_, fun a ha e he same => ?_,
    fun a ha b hb uri generation => ?_, fun e mem => ?_⟩
  · rcases known a mem with rfl | mem
    · exact indexed
    · exact h.indexed a mem
  · rcases known a mem with rfl | mem
    · exact count
    · exact Nat.le_succ_of_le (h.counted a mem)
  · rcases known a ha, docs e he with ⟨rfl | ha, rfl | ⟨he, ne⟩⟩
    · exact UInt64.le_refl _
    · exact absurd same.symm ne
    · exact UInt64.le_of_lt (later a ha same)
    · exact h.newest a ha e he same
  · rcases known a ha, known b hb with ⟨rfl | ha, rfl | hb⟩
    · rfl
    · exact absurd (generation ▸ later b hb uri.symm) (UInt64.lt_irrefl _)
    · exact absurd (generation ▸ later a ha uri) (UInt64.lt_irrefl _)
    · exact h.told a ha b hb uri generation
  · obtain ⟨s, taken, d, mem, eq⟩ := h.remembered e (entries mem)
    exact ⟨s, .tail _ taken, d, mem, eq⟩

theorem Consistent.changes (h : t.Consistent) (few : t.earlier.length + 1 < 2 ^ 64) {p : Project}
    (changes : t.project.Changes p) (calm : steady (p.now :: t.taken) = true) :
    Consistent ⟨p, t.taken⟩ := by
  cases changes with
  | keeps k => exact h.keeps k.docs fun e mem => h.remembered e (k.entries mem)
  | publishes d _ indexed follows docs entries =>
    refine h.publishes few indexed follows docs entries fun held => ?_
    simp only [taken, steady, Bool.and_eq_true, List.all_eq_true] at calm
    simpa using calm.1 d held

/-- Asking a snapshot about some of its documents leaves results of that snapshot behind. -/
theorem remembered_usagesAmong {s : Snapshot} (ds : List Document) (held : ds ⊆ s.docs) (c : Cache) :
    ∀ e ∈ (s.usagesAmong c ds).1.entries, e ∈ c.entries ∨ ∃ d ∈ s.docs, e = (s.scopeOf d).entry := by
  induction ds generalizing c with
  | nil => exact fun e mem => .inl mem
  | cons d rest ih =>
    intro e mem
    have inside := List.cons_subset.mp held
    rcases ih inside.2 _ e mem with mem | found
    · exact (Cache.entries_resolve c _ e mem).imp_right fun eq => ⟨d, inside.1, eq⟩
    · exact .inr found

theorem remembered_resolve {s : Snapshot} (c : Cache) (uri : Bytes) :
    ∀ e ∈ (s.resolve c uri).1.entries, e ∈ c.entries ∨ ∃ d ∈ s.docs, e = (s.scopeOf d).entry := by
  intro e mem
  unfold Snapshot.resolve Snapshot.document at mem
  cases found : s.document? uri with
  | none =>
    rw [found] at mem
    exact .inl mem
  | some d =>
    rw [found] at mem
    exact (Cache.entries_resolve c _ e mem).imp_right fun eq =>
      ⟨d, (Snapshot.mem_of_document? found).1, eq⟩

/-- Asking a snapshot changes nothing but what is remembered. -/
theorem Consistent.asked (h : t.Consistent) {s : Snapshot} (taken : s ∈ t.taken) {c : Cache}
    (entries : ∀ e ∈ c.entries,
      e ∈ t.project.cache.entries ∨ ∃ d ∈ s.docs, e = (s.scopeOf d).entry) :
    Consistent ⟨{ t.project with cache := c }, t.taken⟩ := by
  refine h.keeps (List.Subset.refl _) fun e mem => ?_
  rcases entries e mem with mem | found
  · exact h.remembered e mem
  · exact ⟨s, taken, found⟩

/-- Every event keeps generations and results together, unless a document comes back. -/
theorem Consistent.step (h : t.Consistent) (few : t.earlier.length + 1 < 2 ^ 64) (e : Event)
    (calm : steady (t.step e).taken = true) : (t.step e).Consistent := by
  cases e with
  | openDocument uri text => exact h.changes few (t.project.changes_openDocument uri text) calm
  | update uri edit =>
    have indexed : ∀ d ∈ t.project.now.docs, d.Indexed := fun d mem => h.indexed d (seen_of_now mem)
    exact h.changes few (t.project.changes_update uri edit indexed) calm
  | closeDocument uri => exact h.changes few (.keeps (t.project.keeps_closeDocument uri)) calm
  | refresh => exact h.changes few (.keeps t.project.keeps_refresh) calm
  | finishLoad key outcome => exact h.changes few (t.project.changes_finishLoad key outcome) calm
  | resolve number uri => exact h.asked (t.snapshot_mem number) (remembered_resolve _ uri)
  | references number =>
    refine h.asked (t.snapshot_mem number) (remembered_usagesAmong _ (fun d mem => ?_) _)
    exact List.mem_mergeSort.mp (List.mem_filter.mp mem).1

theorem run_concat (options : ProjectOptions) (events : List Event) (e : Event) :
    run options (events ++ [e]) = (run options events).step e := by
  rw [run, List.foldl_concat, run]

theorem length_earlier_run (options : ProjectOptions) (events : List Event) :
    (run options events).earlier.length = events.length := by
  induction events using List.reverseRecOn with
  | nil => rfl
  | append_singleton events e ih =>
    rw [run_concat, List.length_append, ← ih]
    rfl

theorem consistent_run (options : ProjectOptions) (events : List Event)
    (few : events.length < 2 ^ 64) (calm : steady (run options events).taken = true) :
    (run options events).Consistent := by
  induction events using List.reverseRecOn with
  | nil =>
    refine ⟨?_, ?_, ?_, ?_, ?_⟩ <;> intro a mem <;> exact absurd mem (List.not_mem_nil)
  | append_singleton events e ih =>
    rw [run_concat] at calm ⊢
    rw [List.length_append, List.length_singleton] at few
    have before : steady (run options events).taken = true := by
      simp only [Timeline.step, taken, steady, Bool.and_eq_true] at calm
      exact calm.2
    refine (ih (by omega) before).step ?_ e calm
    rwa [length_earlier_run]

/-- Documents that are told apart by their generations are told apart by stamps. -/
theorem Consistent.scope_eq (h : t.Consistent) (plain : ∀ d ∈ t.seen, (0x3b : UInt8) ∉ d.uri)
    {s s' : Snapshot} (taken : s ∈ t.taken) (taken' : s' ∈ t.taken) {d d' : Document}
    (mem : d ∈ s.docs) (mem' : d' ∈ s'.docs)
    (same : (s.scopeOf d).stamp = (s'.scopeOf d').stamp) : s.scopeOf d = s'.scopeOf d' := by
  have seen {s : Snapshot} (taken : s ∈ t.taken) {d : Document} (mem : d ∈ s.docs) :
      ∀ a ∈ (s.scopeOf d).visible, ∃ e ∈ t.seen, e.table = a := fun a visible => by
    obtain ⟨e, held, eq⟩ := Snapshot.visible_scopeOf mem visible
    exact ⟨e, mem_seen.mpr ⟨s, taken, held⟩, eq⟩
  have clean {s : Snapshot} (taken : s ∈ t.taken) {d : Document} (mem : d ∈ s.docs) :
      ∀ a ∈ (s.scopeOf d).visible, (0x3b : UInt8) ∉ a.uri := fun a visible => by
    obtain ⟨e, known, rfl⟩ := seen taken mem a visible
    exact plain e known
  obtain ⟨versions, pending⟩ := Scope.stamp_inj (clean taken mem) (clean taken' mem') same
  refine Scope.eq_of_versions (fun a visible b visible' uri generation => ?_) versions pending
  obtain ⟨a, ha, rfl⟩ := seen taken mem a visible
  obtain ⟨b, hb, rfl⟩ := seen taken' mem' b visible'
  rw [h.told a ha b hb uri generation]

/-- In a run of fewer than `2 ^ 64` events in which no document comes back after it was dropped, and
no URI holds a semicolon, every snapshot is asked as if nothing had been remembered: there is one
result for each reference of its document, found in the scope that the snapshot gives the document,
and it names types of documents of the snapshot only. -/
theorem resolve_eq_resolveAll (options : ProjectOptions) (events : List Event)
    (few : events.length < 2 ^ 64) (calm : steady (run options events).taken = true)
    (plain : ∀ d ∈ (run options events).seen, (0x3b : UInt8) ∉ d.uri) (s : Snapshot)
    (taken : s ∈ (run options events).taken) (uri : Bytes) (d : Document)
    (held : s.document? uri = some d) :
    s.scope uri = .ok (s.scopeOf d, s.importTargets d) ∧
      (s.resolve (run options events).project.cache uri).2 = .ok (s.scopeOf d).resolveAll ∧
      (s.scopeOf d).resolveAll.length = d.table.references.length ∧
      ∀ r ∈ (s.scopeOf d).resolveAll, ∀ symbol ∈ r.symbols,
        ∃ e ∈ s.docs, symbol ∈ e.table.symbols ∧ symbol.uri = e.uri ∧
          symbol.generation = e.generation := by
  have h := consistent_run options events few calm
  obtain ⟨mem, here⟩ := Snapshot.mem_of_document? held
  have document : s.document uri = .ok d := by rw [Snapshot.document, held]
  refine ⟨?_, ?_, List.length_map _, ?_⟩
  · rw [Snapshot.scope, document]
    rfl
  · have found : ((run options events).project.cache.resolve (s.scopeOf d)).2 =
        (s.scopeOf d).resolveAll := Cache.resolve_eq fun e remembered same => by
      obtain ⟨s', taken', d', mem', rfl⟩ := h.remembered e remembered
      rw [← h.scope_eq plain taken' taken mem' mem same]
      rfl
    rw [Snapshot.resolve, document]
    exact congrArg Except.ok found
  · intro r among symbol named
    obtain ⟨reference, -, rfl⟩ := List.mem_map.mp among
    have sound : ∀ a ∈ (s.scopeOf d).visible, a.Sound := fun a visible => by
      obtain ⟨e, held, rfl⟩ := Snapshot.visible_scopeOf mem visible
      exact (h.indexed e (mem_seen.mpr ⟨s, taken, held⟩)).sound
    obtain ⟨a, visible, declared⟩ := reference.resolve_visible sound symbol named
    obtain ⟨e, held, rfl⟩ := Snapshot.visible_scopeOf mem visible
    exact ⟨e, held, declared, (h.indexed e (mem_seen.mpr ⟨s, taken, held⟩)).sound.own _ declared⟩

/-- A document is edited, and both of its generations are asked about in turn. -/
def revisited : List Event :=
  [.openDocument "/a.avdl" "record A { B b; } record B { }", .resolve 0 "/a.avdl",
    .update "/a.avdl" ⟨11, 1, "int"⟩, .resolve 0 "/a.avdl", .resolve 3 "/a.avdl"]

theorem resolve_eq_resolveAll_revisited :
    revisited.length < 2 ^ 64 ∧ steady (run {} revisited).taken = true ∧
      (∀ d ∈ (run {} revisited).seen, (0x3b : UInt8) ∉ d.uri) ∧
      ∃ d, ((run {} revisited).snapshot 0).document? "/a.avdl" = some d ∧
        (((run {} revisited).snapshot 0).resolve (run {} revisited).project.cache "/a.avdl").2 =
          .ok (((run {} revisited).snapshot 0).scopeOf d).resolveAll := by
  have calm : steady (run {} revisited).taken = true := by decide +kernel
  have plain : ∀ d ∈ (run {} revisited).seen, (0x3b : UInt8) ∉ d.uri := by decide +kernel
  have held : (((run {} revisited).snapshot 0).document? "/a.avdl").isSome = true := by decide +kernel
  obtain ⟨d, found⟩ := Option.isSome_iff_exists.mp held
  exact ⟨by decide, calm, plain, d, found, (resolve_eq_resolveAll {} revisited (by decide) calm plain _
    ((run {} revisited).snapshot_mem 0) _ d found).2.1⟩

/-- A document is closed and opened with another text, and then its first generation is asked
about. -/
def returned : List Event :=
  [.openDocument "/a.avdl" "record A { B b; } record B { }", .closeDocument "/a.avdl",
    .openDocument "/a.avdl" "record A { int i; C c; }", .resolve 2 "/a.avdl"]

/-- Two references get one result, since the dropped document has the same URI and generation. -/
theorem resolve_after_return :
    let t := run {} returned
    (t.project.now.document? "/a.avdl").map (·.table.references.length) = some 2 ∧
      ((t.project.now.resolve t.project.cache "/a.avdl").2.toOption.map List.length) = some 1 ∧
      (t.project.now.scope "/a.avdl").toOption.map (·.1.resolveAll) =
        some [.primitive "int", .unresolved] := by
  decide +kernel

end Timeline

end AvroIdl
