import AvroIdl.Proofs.Loader
import AvroIdl.Proofs.Project.Agreement
import AvroIdl.Proofs.Project.Session

/-!
# What accounts for documents

Documents are opened one after the other, and the loads that this begins end in any order in
between. Each document that is then loaded came to be read in some way, `Project.Arrives`. If all
ways give it the same kind, what was opened and what the files hold say all about it:
`Project.Opening.accounted`.
-/

namespace AvroIdl

namespace Project

/-- A new project in which some documents were opened, the last of which comes first. Some of the
loads that this began have ended. -/
inductive Opening (l : Loader) (options : ProjectOptions) :
    List (Bytes × Bytes) → Project → Prop where
  | new : Opening l options [] { options }
  | opens {pairs : List (Bytes × Bytes)} {p : Project} (before : Opening l options pairs p)
    (uri text : Bytes) : Opening l options ((uri, text) :: pairs) (p.openDocument uri text).1
  | loads {pairs : List (Bytes × Bytes)} {p p' : Project} (before : Opening l options pairs p)
    (step : Loads l.load p p') : Opening l options pairs p'

/-- The ways in which a document can come to be read, with the kind and the text that it then has:
it is opened, or it is imported by a document that has come to be read. -/
inductive Arrives (l : Loader) (maxSize : Nat) (pairs : List (Bytes × Bytes)) :
    Bytes → DocumentKind → Bytes → Prop where
  | opened {uri text : Bytes} (mem : (uri, text) ∈ pairs) :
    Arrives l maxSize pairs uri (.ofUri uri) text
  | imported {uri text target content : Bytes} {kind : DocumentKind} {i : Import}
    (source : Arrives l maxSize pairs uri kind text)
    (asks : i ∈ (Document.read 0 uri kind text ⟨0, maxSize⟩).imports)
    (found : l.load uri i.path = .ok (target, content)) :
    Arrives l maxSize pairs target (.ofImport i.kind target) content

/-- All ways in which a document can come to be read give it the same kind. -/
def OneKind (l : Loader) (maxSize : Nat) (pairs : List (Bytes × Bytes)) : Prop :=
  ∀ uri kind kind' text text', Arrives l maxSize pairs uri kind text →
    Arrives l maxSize pairs uri kind' text' → kind = kind'

section

variable {l : Loader} {maxSize : Nat} {pairs pairs' : List (Bytes × Bytes)}

theorem Arrives.mono (more : pairs ⊆ pairs') {uri text : Bytes} {kind : DocumentKind}
    (h : Arrives l maxSize pairs uri kind text) : Arrives l maxSize pairs' uri kind text := by
  induction h with
  | opened mem => exact .opened (more mem)
  | imported _ asks found ih => exact .imported ih asks found

theorem OneKind.mono (more : pairs ⊆ pairs') (h : OneKind l maxSize pairs') :
    OneKind l maxSize pairs :=
  fun uri kind kind' text text' a a' => h uri kind kind' text text' (a.mono more) (a'.mono more)

end

/-! ## What one publication does -/

/-- A document is published in the place of that with the same URI, and some may be dropped. -/
structure Publishes (d : Document) (p p' : Project) : Prop where
  options : p'.options = p.options
  serial : p'.serial = p.serial + 1
  cache : p'.cache.entries ⊆ p.cache.entries
  docs : p'.now.docs.Sublist (p.now.docs.filter (fun e => e.uri ≠ d.uri) ++ [d])

variable {p p' : Project} {d : Document}

theorem publishes_publish (running : p.closed = false) (links : p.now.links.Distinct)
    (d : Document) : Publishes d p (p.publish d) := by
  have scheduled := schedules_schedule (p := p.put d) running links d
  have swept := keeps_sweep ((p.put d).schedule d)
  rw [publish_eq]
  refine ⟨scheduled.options, scheduled.serial, List.Subset.trans swept.entries ?_, ?_⟩
  · rw [scheduled.cache]
    exact List.filter_subset_self _
  · have docs : ((p.put d).schedule d).now.docs =
        p.now.docs.filter (fun e => e.uri ≠ d.uri) ++ [d] := scheduled.docs
    rw [← docs]
    exact List.filter_sublist

/-! ## Accounts -/

/-- What was opened and what the files hold account for a document. -/
structure Accounts (l : Loader) (maxSize : Nat) (pairs : List (Bytes × Bytes)) (d : Document) :
    Prop where
  read : ∃ serial generation, d = .read serial d.uri d.kind d.text ⟨generation, maxSize⟩
  arrived : Arrives l maxSize pairs d.uri d.kind d.text
  text : ∀ text, (d.uri, text) ∈ pairs → d.text = text
  file : d.uri ∉ pairs.map Prod.fst → l.files.file? d.uri = some d.text

/-- All documents and links are accounted for. -/
structure Accounted (l : Loader) (options : ProjectOptions) (pairs : List (Bytes × Bytes))
    (p : Project) : Prop where
  coherent : p.Coherent
  settings : p.options = options
  cache : p.cache.entries = []
  opened : ∀ uri, uri ∈ p.now.opened ↔ uri ∈ pairs.map Prod.fst
  serial : ∀ d ∈ p.now.docs, d.serial < p.serial
  serials : (p.now.docs.map Document.serial).Nodup
  docs : ∀ d ∈ p.now.docs, Accounts l options.maxSize pairs d
  status : ∀ key s, p.now.links.status? key = some s →
    s = .pending ∨ s = .ofOutcome (l.load key.source key.path)

section

variable {l : Loader} {options : ProjectOptions} {pairs pairs' : List (Bytes × Bytes)}

theorem accounted_new (l : Loader) (options : ProjectOptions) :
    Accounted l options [] { options } where
  coherent := coherent_new options
  settings := rfl
  cache := rfl
  opened _ := Iff.rfl
  serial _ mem := absurd mem List.not_mem_nil
  serials := .nil
  docs _ mem := absurd mem List.not_mem_nil
  status key s known := by simp [Links.status?] at known

/-- Opening another document makes no difference to a document. -/
theorem Accounts.cons {uri text : Bytes} (h : Accounts l options.maxSize pairs d)
    (other : d.uri ≠ uri) : Accounts l options.maxSize ((uri, text) :: pairs) d where
  read := h.read
  arrived := h.arrived.mono (List.subset_cons_self _ _)
  text content mem := by
    rcases List.mem_cons.mp mem with same | mem
    · exact absurd (Prod.mk.inj same).1 other
    · exact h.text content mem
  file unopened := h.file fun mem => unopened (.tail _ mem)

/-- A document that is read with the next serial number is accounted for along with the others. -/
theorem Accounted.publishes (h : Accounted l options pairs p) (published : Publishes d p p')
    (coherent : p'.Coherent)
    (opened : ∀ uri, uri ∈ p'.now.opened ↔ uri ∈ pairs'.map Prod.fst)
    (serial : d.serial = p.serial) (new : Accounts l options.maxSize pairs' d)
    (others : ∀ e ∈ p.now.docs, e.uri ≠ d.uri → Accounts l options.maxSize pairs' e)
    (status : ∀ key s, p'.now.links.status? key = some s →
      s = .pending ∨ s = .ofOutcome (l.load key.source key.path)) :
    Accounted l options pairs' p' := by
  have docs : ∀ e ∈ p'.now.docs, e ∈ p.now.docs ∧ e.uri ≠ d.uri ∨ e = d := by
    intro e mem
    simpa using published.docs.subset mem
  refine ⟨coherent, published.options.trans h.settings,
    List.eq_nil_of_subset_nil (h.cache ▸ published.cache), opened, fun e mem => ?_, ?_,
    fun e mem => ?_, status⟩
  · rw [published.serial]
    rcases docs e mem with ⟨mem, -⟩ | rfl
    · exact Nat.lt_succ_of_lt (h.serial e mem)
    · exact serial ▸ Nat.lt_succ_self _
  · refine List.Nodup.sublist (published.docs.map Document.serial) ?_
    rw [List.map_append, List.nodup_append]
    refine ⟨h.serials.sublist (List.filter_sublist.map _), List.nodup_singleton _, ?_⟩
    intro a old b last
    obtain ⟨e, kept, rfl⟩ := List.mem_map.mp old
    obtain rfl := List.mem_singleton.mp last
    exact Nat.ne_of_lt (serial ▸ h.serial e (List.mem_filter.mp kept).1)
  · rcases docs e mem with ⟨mem, other⟩ | rfl
    · exact others e mem other
    · exact new

/-- All that can be asked for in the documents that are loaded can arrive. -/
theorem Accounted.arrives (h : Accounted l options pairs p) {key : LinkKey}
    (asked : (p.now.links.status? key).isSome) {uri text : Bytes}
    (found : l.load key.source key.path = .ok (uri, text)) :
    Arrives l options.maxSize pairs uri (.ofImport key.kind uri) text := by
  obtain ⟨d, mem, statement⟩ := (h.coherent.asked key).mp asked
  obtain ⟨i, asks, rfl⟩ := List.mem_map.mp statement
  have account := h.docs d mem
  obtain ⟨serial, generation, read⟩ := account.read
  refine .imported (i := i) account.arrived ?_ found
  have undated := Document.undated_read serial d.uri d.kind d.text ⟨generation, options.maxSize⟩
  rw [← read] at undated
  rw [← undated]
  exact asks

theorem accounts_read {uri text : Bytes} {kind : DocumentKind} (settings : p.options = options)
    (generation : UInt64) (arrived : Arrives l options.maxSize pairs uri kind text)
    (opened : ∀ content, (uri, content) ∈ pairs → text = content)
    (file : uri ∉ pairs.map Prod.fst → l.files.file? uri = some text) :
    Accounts l options.maxSize pairs (p.read uri kind text generation) := by
  have here : (p.read uri kind text generation).uri = uri := (Document.version_read ..).1
  subst settings
  refine ⟨⟨p.serial, generation, ?_⟩, ?_, ?_, ?_⟩ <;> rw [here]
  · rfl
  · exact arrived
  · exact opened
  · exact file

/-- A document is opened with the kind that all ways to read it give it. -/
theorem Accounted.opening_eq (h : Accounted l options pairs p) {uri text : Bytes}
    (one : OneKind l options.maxSize ((uri, text) :: pairs)) :
    ∃ generation, p.opening uri text = p.read uri (.ofUri uri) text generation := by
  unfold opening
  split
  next old found =>
    obtain ⟨mem, rfl⟩ := Snapshot.mem_of_document? found
    have arrived := (h.docs old mem).arrived.mono (List.subset_cons_self (old.uri, text) pairs)
    rw [one _ _ _ _ _ arrived (.opened List.mem_cons_self)]
    exact ⟨_, rfl⟩
  next => exact ⟨1, rfl⟩

/-- A document that is opened is accounted for. -/
theorem Accounted.openDocument (h : Accounted l options pairs p) {uri text : Bytes}
    (unopened : uri ∉ pairs.map Prod.fst) (one : OneKind l options.maxSize ((uri, text) :: pairs)) :
    Accounted l options ((uri, text) :: pairs) (p.openDocument uri text).1 := by
  have begins := begins_openDocument h.coherent uri text
  have here := p.uri_opening uri text
  obtain ⟨generation, read⟩ := h.opening_eq one
  have published := publishes_publish (p := p.mark uri) h.coherent.running h.coherent.links
    (p.opening uri text)
  rw [← openDocument_eq] at published
  refine h.publishes ⟨published.options, published.serial, published.cache, published.docs⟩
    (h.coherent.openDocument uri text) (fun u => ?_) ?_ ?_ (fun e mem other => ?_)
    (fun key s status => ?_)
  · rw [begins.opened, mem_opened_mark, h.opened, List.map_cons, List.mem_cons]
  · rw [read]
    exact Document.serial_read ..
  · rw [read]
    refine accounts_read h.settings generation (.opened List.mem_cons_self) (fun content mem => ?_)
      fun absent => absurd List.mem_cons_self absent
    rcases List.mem_cons.mp mem with same | mem
    · exact (Prod.mk.inj same).2.symm
    · exact absurd (List.mem_map.mpr ⟨_, mem, rfl⟩) unopened
  · exact (h.docs e mem).cons (here ▸ other)
  · rcases begins.status key s status with known | ⟨-, pending⟩
    · exact h.status key s known
    · exact .inl pending

/-- A load that ends changes one link to its outcome. -/
theorem Accounted.status_finishLoad (h : Accounted l options pairs p) {key : LinkKey}
    (asked : (p.now.links.status? key).isSome) (other : LinkKey) (s : LinkStatus)
    (status : (p.finishLoad key (l.load key.source key.path)).now.links.status? other = some s) :
    s = .pending ∨ s = .ofOutcome (l.load other.source other.path) := by
  rcases (begins_finishLoad h.coherent asked _).status other s status with known | ⟨-, pending⟩
  · rw [status?_settleLink h.coherent.links] at known
    split_ifs at known with same
    · exact .inr (same ▸ (Option.some.inj known).symm)
    · exact h.status other s known
  · exact .inl pending

/-- What a load finds is accounted for. -/
theorem Accounted.loads (h : Accounted l options pairs p) (step : Loads l.load p p') :
    Accounted l options pairs p' := by
  obtain @⟨key, begun⟩ := step
  have coherent : (p.finishLoad key (l.load key.source key.path)).Coherent :=
    h.coherent.finishLoad (h.status key)
  cases asked : p.now.links.status? key with
  | none =>
    rw [finishLoad_of_none asked] at coherent ⊢
    exact ⟨coherent, h.settings, h.cache, h.opened, h.serial, h.serials, h.docs, h.status⟩
  | some s =>
    have known : (p.now.links.status? key).isSome = true := by rw [asked]; rfl
    have opened := h.opened
    rw [← opened_finishLoad h.coherent (l.load key.source key.path)] at opened
    have status := h.status_finishLoad known
    rcases finishLoad_cases h.coherent known (l.load key.source key.path) with
      ⟨-, eq⟩ | ⟨uri, text, found, held, eq⟩
    · rw [eq] at coherent opened status ⊢
      exact ⟨coherent, h.settings, h.cache, opened, h.serial, h.serials, h.docs, status⟩
    · have published := publishes_publish
        (p := p.settleLink key (l.load key.source key.path)) h.coherent.running
        (Links.distinct_set h.coherent.links) (p.read uri (.ofImport key.kind uri) text 1)
      have unopened : uri ∉ pairs.map Prod.fst := fun mem =>
        held (h.coherent.opened uri ((h.opened uri).mpr mem))
      rw [eq] at coherent opened status ⊢
      refine h.publishes ⟨published.options, published.serial, published.cache, published.docs⟩
        coherent opened (Document.serial_read ..) ?_ (fun e mem _ => h.docs e mem) status
      exact accounts_read h.settings 1 (h.arrives known found)
        (fun content mem => absurd (List.mem_map.mpr ⟨_, mem, rfl⟩) unopened)
        fun _ => Loader.file?_of_load found

theorem Opening.accounted (h : Opening l options pairs p) (distinct : (pairs.map Prod.fst).Nodup)
    (one : OneKind l options.maxSize pairs) : Accounted l options pairs p := by
  induction h with
  | new => exact accounted_new l options
  | opens before uri text ih =>
    rw [List.map_cons, List.nodup_cons] at distinct
    exact (ih distinct.2 (one.mono (List.subset_cons_self _ _))).openDocument distinct.1 one
  | loads before step ih => exact (ih distinct one).loads step

end

end Project

end AvroIdl
