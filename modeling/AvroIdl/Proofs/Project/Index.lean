import AvroIdl.Proofs.Gather
import AvroIdl.Proofs.Project.Link
import AvroIdl.Proofs.Project.Publication

/-!
# What a project keeps

A project keeps the documents that are open and those that they lead to, and the links that their
statements ask for: `Project.Coherent`. Publishing a document may leave more than that for a moment,
and what is swept away then is all the rest, `Project.Sound.sweep`. So every operation and every
load that ends keeps a project coherent.
-/

namespace AvroIdl

theorem Document.source_of_mem_keys {d : Document} {key : LinkKey} (mem : key ∈ d.keys) :
    key.source = d.uri := by
  obtain ⟨i, -, rfl⟩ := List.mem_map.mp mem
  rfl

/-- What a link is after a load. -/
def LinkStatus.ofOutcome : Except LoadError (Bytes × Bytes) → LinkStatus
  | .error e => broken e
  | .ok (uri, _) => loaded uri

namespace Snapshot

variable {s : Snapshot} {u v : Bytes} {d : Document}

/-- A link of one document leads to another. -/
def Leads (s : Snapshot) (u v : Bytes) : Prop :=
  ∃ key, key.source = u ∧ s.links.status? key = some (.loaded v)

/-- Each document is loaded once. -/
abbrev Distinct (s : Snapshot) : Prop := (s.docs.map Document.uri).Nodup

theorem holds_iff : s.holds u = true ↔ ∃ d ∈ s.docs, d.uri = u := by
  simp [holds, document?]

theorem holds_iff_mem : s.holds u = true ↔ u ∈ s.docs.map Document.uri := by
  rw [holds_iff, List.mem_map]

theorem document?_eq_some (distinct : s.Distinct) (mem : d ∈ s.docs) :
    s.document? d.uri = some d := by
  cases found : s.document? d.uri with
  | none => exact absurd rfl (ne_of_document? found d mem)
  | some e =>
    obtain ⟨held, same⟩ := mem_of_document? found
    rw [List.inj_on_of_nodup_map distinct held mem same]

theorem mem_targetsOf (distinct : s.Distinct) :
    v ∈ s.targetsOf u ↔
      ∃ d ∈ s.docs, d.uri = u ∧ ∃ key ∈ d.keys, s.links.status? key = some (.loaded v) := by
  have target (d : Document) : v ∈ d.targets s.links ↔
      ∃ key ∈ d.keys, s.links.status? key = some (.loaded v) := by
    rw [Document.targets, List.mem_filterMap]
    refine exists_congr fun key => and_congr_right fun _ => ?_
    cases s.links.status? key with
    | none => simp
    | some status => cases status <;> simp [LinkStatus.target?]
  constructor
  · intro mem
    unfold targetsOf at mem
    cases found : s.document? u with
    | none => rw [found] at mem; contradiction
    | some d =>
      rw [found] at mem
      obtain ⟨held, here⟩ := mem_of_document? found
      exact ⟨d, held, here, (target d).mp mem⟩
  · rintro ⟨d, held, rfl, asked⟩
    rw [targetsOf, document?_eq_some distinct held]
    exact (target d).mpr asked

end Snapshot

namespace Project

/-- Documents and links are told apart, open documents and those that links lead to are `held`, and
what is pending is being loaded. -/
structure Sound (p : Project) (held : Bytes → Prop) : Prop where
  running : p.closed = false
  docs : p.now.Distinct
  links : p.now.links.Distinct
  opened : ∀ uri ∈ p.now.opened, held uri
  leads : ∀ key uri, p.now.links.status? key = some (.loaded uri) → held uri
  waits : ∀ key, p.now.links.status? key = some .pending → key ∈ p.loads

/-- A project keeps what it needs and nothing else. -/
structure Coherent (p : Project) : Prop extends Sound p (p.now.holds · = true) where
  asked : ∀ key, (p.now.links.status? key).isSome ↔ ∃ d ∈ p.now.docs, key ∈ d.keys
  reached : ∀ d ∈ p.now.docs, ∃ o ∈ p.now.opened, Relation.ReflTransGen p.now.Leads o d.uri

variable {p p' : Project} {d : Document} {key : LinkKey} {uri : Bytes}

/-- What asks for something is loaded. -/
theorem Coherent.holds_source (h : p.Coherent) (asked : (p.now.links.status? key).isSome) :
    p.now.holds key.source = true := by
  obtain ⟨d, mem, statement⟩ := (h.asked key).mp asked
  rw [d.source_of_mem_keys statement]
  exact Snapshot.holds_of_mem mem

theorem Coherent.advance (h : p.Coherent) : p.advance.Coherent :=
  ⟨⟨h.running, h.docs, h.links, h.opened, h.leads, h.waits⟩, h.asked, h.reached⟩

/-! ## Sweeping -/

theorem mem_docs_sweep : d ∈ p.sweep.now.docs ↔ d ∈ p.now.docs ∧ d.uri ∈ live p.now := by
  simp [sweep]

theorem status?_sweep (links : p.now.links.Distinct) {s : LinkStatus} :
    p.sweep.now.links.status? key = some s ↔
      p.now.links.status? key = some s ∧ ∃ d ∈ p.sweep.now.docs, key ∈ d.keys := by
  have kept : p.sweep.now.links.status? key =
      (p.now.links.status? key).filter fun _ =>
        (p.sweep.now.docs.flatMap Document.keys).contains key := Links.status?_filter links
  rw [kept, Option.filter_eq_some_iff, List.contains_iff_mem, List.mem_flatMap]

theorem live_of_opened (opened : uri ∈ p.now.opened) (loaded : p.now.holds uri = true) :
    uri ∈ live p.now :=
  pending_mem_gather opened (Snapshot.holds_iff_mem.mp loaded)

/-- What a document leads to is live if the document is. -/
theorem Sound.live_of_leads {held : Bytes → Prop} (h : p.Sound held) (mem : d ∈ p.now.docs)
    (kept : d.uri ∈ live p.now) (asked : key ∈ d.keys)
    (leads : p.now.links.status? key = some (.loaded uri)) (loaded : p.now.holds uri = true) :
    uri ∈ live p.now := by
  refine next_mem_gather kept ?_ (Snapshot.holds_iff_mem.mp loaded)
  exact (Snapshot.mem_targetsOf h.docs).mpr ⟨d, mem, rfl, key, asked, leads⟩

/-- What is live is reached through links that are kept. -/
theorem Sound.reached_of_live {held : Bytes → Prop} (h : p.Sound held) (kept : uri ∈ live p.now) :
    ∃ o ∈ p.now.opened, Relation.ReflTransGen p.sweep.now.Leads o uri := by
  obtain ⟨o, opened, loaded, path⟩ := mem_gather.mp kept
  refine ⟨o, opened, ?_⟩
  clear kept
  induction path with
  | refl => exact .refl
  | @tail a b path step ih =>
    obtain ⟨d, mem, rfl, key, asked, leads⟩ := (Snapshot.mem_targetsOf h.docs).mp step.1
    have kept : d.uri ∈ live p.now := mem_gather.mpr ⟨o, opened, loaded, path⟩
    refine .tail ih ⟨key, d.source_of_mem_keys asked, ?_⟩
    exact (status?_sweep h.links).mpr ⟨leads, d, mem_docs_sweep.mpr ⟨mem, kept⟩, asked⟩

theorem holds_sweep (kept : uri ∈ live p.now) : p.sweep.now.holds uri = true := by
  obtain ⟨d, mem, rfl⟩ := List.mem_map.mp (gather_subset kept)
  exact Snapshot.holds_of_mem (mem_docs_sweep.mpr ⟨mem, kept⟩)

/-- Where every statement has its link, what is left after sweeping is what is needed. -/
theorem Sound.sweep (h : p.Sound (p.now.holds · = true))
    (covered : ∀ d ∈ p.now.docs, ∀ key ∈ d.keys, (p.now.links.status? key).isSome) :
    p.sweep.Coherent where
  running := h.running
  docs := h.docs.sublist (List.filter_sublist.map _)
  links := h.links.sublist (List.filter_sublist.map _)
  opened uri opened := holds_sweep (live_of_opened opened (h.opened uri opened))
  leads key uri leads := by
    obtain ⟨leads, d, mem, asked⟩ := (status?_sweep h.links).mp leads
    obtain ⟨mem, kept⟩ := mem_docs_sweep.mp mem
    exact holds_sweep (h.live_of_leads mem kept asked leads (h.leads key uri leads))
  waits key pending := h.waits key ((status?_sweep h.links).mp pending).1
  asked key := by
    rw [Option.isSome_iff_exists]
    constructor
    · rintro ⟨s, status⟩
      exact ((status?_sweep h.links).mp status).2
    · rintro ⟨d, mem, asked⟩
      have known := covered d (mem_docs_sweep.mp mem).1 key asked
      obtain ⟨s, status⟩ := Option.isSome_iff_exists.mp known
      exact ⟨s, (status?_sweep h.links).mpr ⟨status, d, mem, asked⟩⟩
  reached d mem := h.reached_of_live (mem_docs_sweep.mp mem).2

/-! ## Publishing -/

theorem Sound.schedules {held : Bytes → Prop} {keys : List LinkKey} (h : p.Sound held)
    (s : Schedules keys p p') : p'.Sound held where
  running := s.closed.trans h.running
  docs := by rw [Snapshot.Distinct, s.docs]; exact h.docs
  links := s.distinct
  opened := s.opened ▸ h.opened
  leads key uri leads := by
    rw [s.status] at leads
    cases known : p.now.links.status? key with
    | none => rw [known] at leads; split_ifs at leads <;> simp at leads
    | some status => rw [known] at leads; exact h.leads key uri (known.trans leads)
  waits key pending := by
    obtain ⟨new, loads, begun⟩ := s.loads
    rw [loads, List.mem_append, begun]
    rw [s.status] at pending
    cases known : p.now.links.status? key with
    | none =>
      by_cases asked : key ∈ keys
      · exact .inr ⟨asked, rfl⟩
      · simp [known, asked] at pending
    | some status => rw [known] at pending; exact .inl (h.waits key (known.trans pending))

/-- Puts in a document, before its imports are looked at. -/
def put (p : Project) (d : Document) : Project :=
  { p with
    now := { p.now with docs := p.now.docs.filter (fun e => e.uri ≠ d.uri) ++ [d] }
    cache := p.cache.invalidate d.uri
    serial := p.serial + 1 }

theorem publish_eq (p : Project) (d : Document) :
    p.publish d = ((p.put d).schedule d).sweep.advance := rfl

theorem mem_docs_put {e : Document} :
    e ∈ (p.put d).now.docs ↔ e ∈ p.now.docs ∧ e.uri ≠ d.uri ∨ e = d := by
  simp [put]

theorem holds_put : (p.put d).now.holds uri = true ↔ uri = d.uri ∨ p.now.holds uri = true := by
  simp only [Snapshot.holds_iff, mem_docs_put]
  constructor
  · rintro ⟨e, ⟨mem, -⟩ | rfl, rfl⟩
    · exact .inr ⟨e, mem, rfl⟩
    · exact .inl rfl
  · intro h
    by_cases same : uri = d.uri
    · exact ⟨d, .inr rfl, same.symm⟩
    · obtain ⟨e, mem, rfl⟩ := h.resolve_left same
      exact ⟨e, .inl ⟨mem, same⟩, rfl⟩

theorem distinct_put (docs : p.now.Distinct) : (p.put d).now.Distinct := by
  rw [Snapshot.Distinct, put, List.map_append, List.nodup_append]
  refine ⟨docs.sublist (List.filter_sublist.map _), List.nodup_singleton _, ?_⟩
  intro a mem b last
  obtain ⟨e, kept, rfl⟩ := List.mem_map.mp mem
  obtain rfl := List.mem_singleton.mp last
  simpa using (List.mem_filter.mp kept).2

theorem Sound.put {d : Document} (h : p.Sound fun uri => uri = d.uri ∨ p.now.holds uri = true) :
    (p.put d).Sound ((p.put d).now.holds · = true) where
  running := h.running
  docs := distinct_put h.docs
  links := h.links
  opened uri opened := holds_put.mpr (h.opened uri opened)
  leads key uri leads := holds_put.mpr (h.leads key uri leads)
  waits := h.waits

/-- A project is coherent again after a document was published for which all was prepared. -/
theorem Sound.publish {d : Document} (h : p.Sound fun uri => uri = d.uri ∨ p.now.holds uri = true)
    (covered : ∀ e ∈ p.now.docs, e.uri ≠ d.uri → ∀ key ∈ e.keys, (p.now.links.status? key).isSome) :
    (p.publish d).Coherent := by
  have scheduled := schedules_schedule h.put.running h.put.links d
  have sound := h.put.schedules scheduled
  have same : ((p.put d).schedule d).now.holds = (p.put d).now.holds := by
    funext uri
    rw [Snapshot.holds, Snapshot.document?, scheduled.docs]
    rfl
  rw [publish_eq]
  refine Coherent.advance (Sound.sweep (same ▸ sound) fun e mem key asked => ?_)
  rw [scheduled.status]
  rw [scheduled.docs, mem_docs_put] at mem
  rcases mem with ⟨mem, other⟩ | rfl
  · have known := covered e mem other key asked
    change ((p.now.links.status? key).or _).isSome = true
    simp [known]
  · simp [asked]

/-! ## Operations -/

/-- The document that is read when one is opened. -/
def opening (p : Project) (uri text : Bytes) : Document :=
  match p.now.document? uri with
  | some old => p.read uri old.kind text (old.generation + 1)
  | none => p.read uri (DocumentKind.ofUri uri) text 1

/-- A project in which a document is open, before it is read. -/
def mark (p : Project) (uri : Bytes) : Project :=
  let p := p.interrupt uri
  { p with now := { p.now with opened := p.now.opened.filter (· ≠ uri) ++ [uri] } }

theorem openDocument_eq (p : Project) (uri text : Bytes) :
    (p.openDocument uri text).1 = (p.mark uri).publish (p.opening uri text) := rfl

theorem mem_opened_mark {other : Bytes} :
    other ∈ (p.mark uri).now.opened ↔ other = uri ∨ other ∈ p.now.opened := by
  by_cases same : other = uri <;> simp [mark, interrupt, same]

theorem uri_opening (p : Project) (uri text : Bytes) : (p.opening uri text).uri = uri := by
  unfold opening
  split <;> exact (Document.version_read _ _ _ _ _).1

theorem Coherent.openDocument (h : p.Coherent) (uri text : Bytes) :
    (p.openDocument uri text).1.Coherent := by
  rw [openDocument_eq]
  apply Sound.publish
  · refine ⟨h.running, h.docs, h.links, fun u opened => ?_, fun key u leads => ?_, h.waits⟩
    · rw [uri_opening]
      exact (mem_opened_mark.mp opened).imp_right (h.opened u)
    · exact .inr (h.leads key u leads)
  · exact fun e mem _ key asked => (h.asked key).mpr ⟨e, mem, asked⟩

theorem Coherent.interrupt (h : p.Coherent) (uri : Bytes) : (p.interrupt uri).Coherent :=
  ⟨⟨h.running, h.docs, h.links, h.opened, h.leads, h.waits⟩, h.asked, h.reached⟩

theorem Coherent.update (h : p.Coherent) (uri : Bytes) (edit : Edit) :
    (p.update uri edit).1.Coherent := by
  unfold Project.update
  split
  next => exact h
  next old loaded =>
    dsimp only
    split
    next => exact h.interrupt uri
    next d edited =>
      have h := h.interrupt uri
      apply Sound.publish
      · exact ⟨h.running, h.docs, h.links, fun u opened => .inr (h.opened u opened),
          fun key u leads => .inr (h.leads key u leads), h.waits⟩
      · exact fun e mem _ key asked => (h.asked key).mpr ⟨e, mem, asked⟩

theorem Coherent.closeDocument (h : p.Coherent) (uri : Bytes) :
    (p.closeDocument uri).Coherent := by
  apply Coherent.advance
  apply Sound.sweep
  · exact ⟨h.running, h.docs, h.links, fun u opened => h.opened u (List.mem_filter.mp opened).1,
      h.leads, h.waits⟩
  · exact fun e mem key asked => (h.asked key).mpr ⟨e, mem, asked⟩

/-- A project that has forgotten what could not be loaded. -/
def retry (p : Project) : Project :=
  { p with now := { p.now with links := p.now.links.filter fun l => l.2.error?.isNone } }

theorem refresh_eq (p : Project) : p.refresh = (p.now.docs.foldl schedule p.retry).advance := rfl

/-- A link that is not broken stays as it is when imports are tried again. -/
theorem status?_retry (links : p.now.links.Distinct) {s : LinkStatus} :
    p.retry.now.links.status? key = some s ↔
      p.now.links.status? key = some s ∧ s.error? = none := by
  have kept : p.retry.now.links.status? key =
      (p.now.links.status? key).filter fun s => s.error?.isNone := Links.status?_filter links
  rw [kept, Option.filter_eq_some_iff, Option.isNone_iff_eq_none]

theorem Coherent.refresh (h : p.Coherent) : p.refresh.Coherent := by
  have sound : p.retry.Sound (p.now.holds · = true) :=
    ⟨h.running, h.docs, h.links.sublist (List.filter_sublist.map _), h.opened,
      fun key uri leads => h.leads key uri ((status?_retry h.links).mp leads).1,
      fun key pending => h.waits key ((status?_retry h.links).mp pending).1⟩
  have scheduled := schedules_docs sound.running sound.links p.now.docs
  have same : (p.now.docs.foldl schedule p.retry).now.holds = p.now.holds := by
    funext uri
    rw [Snapshot.holds, Snapshot.document?, scheduled.docs]
    rfl
  rw [refresh_eq]
  refine Coherent.advance ⟨same ▸ sound.schedules scheduled, fun key => ?_, fun d mem => ?_⟩
  · have docs : p.retry.now.docs = p.now.docs := rfl
    rw [scheduled.docs, scheduled.status, Option.isSome_or, Bool.or_eq_true, docs]
    constructor
    · rintro (known | begun)
      · obtain ⟨s, status⟩ := Option.isSome_iff_exists.mp known
        exact (h.asked key).mp (((status?_retry h.links).mp status).1 ▸ rfl)
      · simpa using begun
    · intro asked
      exact .inr (by simpa using asked)
  · rw [scheduled.docs] at mem
    obtain ⟨o, opened, path⟩ := h.reached d mem
    refine ⟨o, scheduled.opened ▸ opened, Relation.ReflTransGen.mono (fun u v step => ?_) _ _ path⟩
    obtain ⟨key, source, leads⟩ := step
    refine ⟨key, source, ?_⟩
    rw [scheduled.status, (status?_retry h.links).mpr ⟨leads, rfl⟩]
    rfl

/-! ## Loads -/

/-- A project in which a load has ended, before what it found is read. -/
def settleLink (p : Project) (key : LinkKey) (outcome : Except LoadError (Bytes × Bytes)) :
    Project :=
  { p with
    loads := p.loads.erase key
    now := { p.now with links := p.now.links.set key (.ofOutcome outcome) } }

theorem finishLoad_of_none (unasked : p.now.links.status? key = none)
    (outcome : Except LoadError (Bytes × Bytes)) :
    p.finishLoad key outcome = { p with loads := p.loads.erase key } := by
  simp [finishLoad, unasked]

theorem finishLoad_of_some (running : p.closed = false) (asked : (p.now.links.status? key).isSome)
    (outcome : Except LoadError (Bytes × Bytes)) :
    p.finishLoad key outcome =
      ((outcome.toOption.bind fun (uri, text) => p.loaded? key uri text).elim
        (p.settleLink key outcome) (p.settleLink key outcome).publish).advance := by
  have asked : (p.now.links.status? key).isNone = false := by simpa using asked
  have going : ¬ (p.closed || (p.now.links.status? key).isNone) = true := by simp [running, asked]
  cases outcome with
  | error e => exact if_neg going
  | ok found => exact if_neg going

/-- A load that ends reads what it finds, unless that is loaded already. -/
theorem finishLoad_cases (h : p.Coherent)
    (asked : (p.now.links.status? key).isSome) (outcome : Except LoadError (Bytes × Bytes)) :
    (∀ uri, LinkStatus.ofOutcome outcome = .loaded uri → p.now.holds uri = true) ∧
      p.finishLoad key outcome = (p.settleLink key outcome).advance ∨
    ∃ uri text, outcome = .ok (uri, text) ∧ ¬ p.now.holds uri = true ∧
      p.finishLoad key outcome = ((p.settleLink key outcome).publish
        (p.read uri (.ofImport key.kind uri) text 1)).advance := by
  rw [finishLoad_of_some h.running asked]
  cases outcome with
  | error e => exact .inl ⟨fun uri eq => by simp [LinkStatus.ofOutcome] at eq, rfl⟩
  | ok found =>
    obtain ⟨uri, text⟩ := found
    dsimp only [Except.toOption, Option.bind_some]
    unfold loaded?
    split_ifs with held
    · refine .inl ⟨fun other eq => ?_, rfl⟩
      obtain rfl := LinkStatus.loaded.inj eq
      exact held
    · exact .inr ⟨uri, text, rfl, held, rfl⟩

variable {outcome : Except LoadError (Bytes × Bytes)}

theorem status?_settleLink (links : p.now.links.Distinct) (other : LinkKey) :
    (p.settleLink key outcome).now.links.status? other =
      if other = key then some (.ofOutcome outcome) else p.now.links.status? other :=
  Links.status?_set links

theorem ofOutcome_ne_pending (outcome : Except LoadError (Bytes × Bytes)) :
    LinkStatus.ofOutcome outcome ≠ .pending := by
  cases outcome <;> simp [LinkStatus.ofOutcome]

theorem Sound.settleLink {held held' : Bytes → Prop} (h : p.Sound held)
    (more : ∀ uri, held uri → held' uri)
    (found : ∀ uri, LinkStatus.ofOutcome outcome = .loaded uri → held' uri) :
    (p.settleLink key outcome).Sound held' where
  running := h.running
  docs := h.docs
  links := Links.distinct_set h.links
  opened uri opened := more uri (h.opened uri opened)
  leads other uri leads := by
    rw [status?_settleLink h.links] at leads
    split_ifs at leads
    · exact found uri (Option.some.inj leads)
    · exact more uri (h.leads other uri leads)
  waits other pending := by
    rw [status?_settleLink h.links] at pending
    split_ifs at pending with same
    · exact absurd (Option.some.inj pending) (ofOutcome_ne_pending outcome)
    · exact (List.mem_erase_of_ne same).mpr (h.waits other pending)

/-- A load that finds no new document changes one link. -/
theorem Coherent.settleLink (h : p.Coherent) (asked : (p.now.links.status? key).isSome)
    (expected : ∀ s, p.now.links.status? key = some s → s = .pending ∨ s = .ofOutcome outcome)
    (found : ∀ uri, LinkStatus.ofOutcome outcome = .loaded uri → p.now.holds uri = true) :
    (p.settleLink key outcome).Coherent where
  toSound := h.toSound.settleLink (fun _ => id) found
  asked other := by
    rw [status?_settleLink h.links]
    split_ifs with same
    · rw [same]
      exact iff_of_true rfl ((h.asked key).mp asked)
    · exact h.asked other
  reached d mem := by
    obtain ⟨o, opened, path⟩ := h.reached d mem
    refine ⟨o, opened, Relation.ReflTransGen.mono (fun u v step => ?_) _ _ path⟩
    obtain ⟨other, source, leads⟩ := step
    refine ⟨other, source, ?_⟩
    rw [status?_settleLink h.links]
    split_ifs with same
    · -- The link led there before, so it was the outcome.
      rcases expected _ (same ▸ leads) with pending | eq
      · contradiction
      · rw [eq]
    · exact leads

/-- A load that ends keeps a project coherent, unless the link led elsewhere before. -/
theorem Coherent.finishLoad (h : p.Coherent)
    (expected : ∀ s, p.now.links.status? key = some s → s = .pending ∨ s = .ofOutcome outcome) :
    (p.finishLoad key outcome).Coherent := by
  cases asked : p.now.links.status? key with
  | none =>
    rw [finishLoad_of_none asked]
    refine ⟨⟨h.running, h.docs, h.links, h.opened, h.leads, fun other pending => ?_⟩, h.asked,
      h.reached⟩
    have ne : other ≠ key := by
      rintro rfl
      rw [asked] at pending
      contradiction
    exact (List.mem_erase_of_ne ne).mpr (h.waits other pending)
  | some s =>
    have asked : (p.now.links.status? key).isSome = true := by rw [asked]; rfl
    rcases finishLoad_cases h asked outcome with ⟨found, eq⟩ | ⟨uri, text, rfl, -, eq⟩
    · rw [eq]
      exact (h.settleLink asked expected found).advance
    · rw [eq]
      have here : (p.read uri (.ofImport key.kind uri) text 1).uri = uri :=
        (Document.version_read _ _ _ _ _).1
      apply Coherent.advance
      apply Sound.publish
      · refine h.toSound.settleLink (fun _ => .inr) fun other eq => .inl ?_
        obtain rfl := LinkStatus.loaded.inj eq
        exact here.symm
      · intro e mem _ other statement
        rw [status?_settleLink h.links]
        split_ifs
        · rfl
        · exact (h.asked other).mpr ⟨e, mem, statement⟩

end Project

end AvroIdl
