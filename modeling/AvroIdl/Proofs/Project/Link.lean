import AvroIdl.Project
import AvroIdl.Proofs.Association

/-!
# What links lead to

What is known of a link after another one was put in or some were dropped, and what scheduling the
imports of a document does: each statement without a link gets a pending one, and a load of it is
begun. Nothing else changes, `Project.Schedules`.
-/

namespace AvroIdl

namespace Links

variable {links : Links} {key other : LinkKey} {status : LinkStatus}

/-- Each key has one link. -/
abbrev Distinct (links : Links) : Prop := (links.map Prod.fst).Nodup

theorem status?_filter {p : LinkKey × LinkStatus → Bool} (distinct : links.Distinct) :
    Links.status? (links.filter p) key = (links.status? key).filter fun s => p (key, s) := by
  have distinct' : Links.Distinct (links.filter p) := distinct.sublist (List.filter_sublist.map _)
  ext s
  rw [Option.filter_eq_some_iff, status?, status?, lookup_eq_some_iff_mem distinct',
    lookup_eq_some_iff_mem distinct, List.mem_filter]

theorem status?_set (distinct : links.Distinct) :
    Links.status? (links.set key status) other =
      if other = key then some status else links.status? other := by
  rw [status?, set, List.lookup_append]
  change ((Links.status? (links.filter fun l => l.1 ≠ key) other).or _) = _
  rw [status?_filter distinct]
  by_cases same : other = key
  · subst same
    simp
  · have ne : (other == key) = false := by simpa using same
    cases links.status? other <;> simp [List.lookup_cons, ne, same]

theorem distinct_set (distinct : links.Distinct) : Links.Distinct (links.set key status) := by
  rw [Distinct, set, List.map_append, List.nodup_append]
  refine ⟨distinct.sublist (List.filter_sublist.map _), List.nodup_singleton _, ?_⟩
  intro a mem b last
  obtain ⟨l, kept, rfl⟩ := List.mem_map.mp mem
  obtain rfl := List.mem_singleton.mp last
  simpa using (List.mem_filter.mp kept).2

end Links

namespace Project

/-- Begins to load what a statement asks for, unless that was begun before. -/
def ask (p : Project) (key : LinkKey) : Project :=
  if (p.now.links.status? key).isSome then p
  else
    { p with
      now := { p.now with links := p.now.links.set key .pending }
      loads := p.loads ++ [key] }

theorem schedule_eq {p : Project} (running : p.closed = false) (d : Document) :
    p.schedule d = d.keys.foldl ask p := by
  rw [schedule, running]
  rfl

/-- What scheduling does: keys without a link get a pending one, and loads of them are begun. -/
structure Schedules (keys : List LinkKey) (p p' : Project) : Prop where
  options : p'.options = p.options
  docs : p'.now.docs = p.now.docs
  opened : p'.now.opened = p.now.opened
  cache : p'.cache = p.cache
  closed : p'.closed = p.closed
  serial : p'.serial = p.serial
  distinct : p'.now.links.Distinct
  status : ∀ key, p'.now.links.status? key =
    (p.now.links.status? key).or (if key ∈ keys then some .pending else none)
  loads : ∃ new, p'.loads = p.loads ++ new ∧
    ∀ key, key ∈ new ↔ key ∈ keys ∧ p.now.links.status? key = none

variable {p p' p'' : Project} {keys keys' : List LinkKey}

theorem Schedules.refl (distinct : p.now.links.Distinct) : Schedules [] p p :=
  ⟨rfl, rfl, rfl, rfl, rfl, rfl, distinct, by simp, [], by simp, by simp⟩

theorem Schedules.trans (h : Schedules keys p p') (h' : Schedules keys' p' p'') :
    Schedules (keys ++ keys') p p'' := by
  obtain ⟨new, loads, asked⟩ := h.loads
  obtain ⟨new', loads', asked'⟩ := h'.loads
  refine ⟨h'.options.trans h.options, h'.docs.trans h.docs, h'.opened.trans h.opened,
    h'.cache.trans h.cache, h'.closed.trans h.closed, h'.serial.trans h.serial, h'.distinct,
    fun key => ?_, new ++ new', ?_, fun key => ?_⟩
  · rw [h'.status, h.status]
    by_cases here : key ∈ keys <;> by_cases there : key ∈ keys' <;> simp [here, there]
  · rw [loads', loads, List.append_assoc]
  · rw [List.mem_append, asked, asked', h.status, List.mem_append]
    by_cases here : key ∈ keys <;> simp [here]

theorem schedules_ask (distinct : p.now.links.Distinct) (key : LinkKey) :
    Schedules [key] p (p.ask key) := by
  unfold ask
  split_ifs with known
  · obtain ⟨s, known⟩ := Option.isSome_iff_exists.mp known
    refine ⟨rfl, rfl, rfl, rfl, rfl, rfl, distinct, fun other => ?_, [], by simp, fun other => ?_⟩
    · by_cases same : other = key
      · simp [same, known]
      · simp [same]
    · by_cases same : other = key
      · simp [same, known]
      · simp [same]
  · have unknown := Option.not_isSome_iff_eq_none.mp known
    refine ⟨rfl, rfl, rfl, rfl, rfl, rfl, Links.distinct_set distinct, fun other => ?_, [key], rfl,
      fun other => ?_⟩
    · rw [Links.status?_set distinct]
      by_cases same : other = key <;> simp [same, unknown]
    · by_cases same : other = key <;> simp [same, unknown]

theorem schedules_schedule (running : p.closed = false) (distinct : p.now.links.Distinct)
    (d : Document) : Schedules d.keys p (p.schedule d) := by
  rw [schedule_eq running]
  generalize d.keys = keys
  clear running
  induction keys generalizing p with
  | nil => exact .refl distinct
  | cons key rest ih =>
    have first := schedules_ask distinct key
    exact first.trans (ih first.distinct)

theorem schedules_docs (running : p.closed = false) (distinct : p.now.links.Distinct)
    (docs : List Document) : Schedules (docs.flatMap Document.keys) p (docs.foldl schedule p) := by
  induction docs generalizing p with
  | nil => exact .refl distinct
  | cons d rest ih =>
    have first := schedules_schedule running distinct d
    exact first.trans (ih (first.closed.trans running) first.distinct)

end Project

end AvroIdl
