import AvroIdl.Proofs.Project.Account
import Mathlib.Data.Finset.Card
import Mathlib.Data.Prod.Lex
import Mathlib.Order.WellFounded

/-!
# Opening documents in any order

A document keeps the kind with which it is first read, which depends on who asks for it first. Where
all who can ask for a document ask for the same kind, `Project.OneKind`, the order in which
documents are opened and loaded makes no difference. The loads come to an end, and then the same
documents are loaded, with the same links, and the same problems are reported:
`Project.opening_confluent`. Where they do not, it does: `Project.opening_first_wins`.
-/

namespace AvroIdl

namespace Project

section

variable {l : Loader} {options : ProjectOptions} {pairs pairs' : List (Bytes × Bytes)}
  {p p' q : Project} {d e : Document}

/-! ## Any order -/

theorem Accounted.perm (order : pairs.Perm pairs') (h : Accounted l options pairs p) :
    Accounted l options pairs' p := by
  have uris (uri : Bytes) : uri ∈ pairs.map Prod.fst ↔ uri ∈ pairs'.map Prod.fst :=
    (order.map Prod.fst).mem_iff
  refine ⟨h.coherent, h.settings, h.cache, fun uri => (h.opened uri).trans (uris uri), h.serial,
    h.serials, fun d mem => ?_, h.status⟩
  have account := h.docs d mem
  exact ⟨account.read, account.arrived.mono order.subset,
    fun text opened => account.text text (order.mem_iff.mpr opened),
    fun unopened => account.file fun opened => unopened ((uris _).mp opened)⟩

/-- What accounts for a document determines it, but for when it was read. -/
theorem Accounts.undated_eq (one : OneKind l options.maxSize pairs)
    (h : Accounts l options.maxSize pairs d) (h' : Accounts l options.maxSize pairs e)
    (same : d.uri = e.uri) : d.undated = e.undated := by
  have kind : d.kind = e.kind := one d.uri _ _ _ _ h.arrived (same ▸ h'.arrived)
  have text : d.text = e.text := by
    by_cases opened : d.uri ∈ pairs.map Prod.fst
    · obtain ⟨⟨_, text⟩, mem, rfl⟩ := List.mem_map.mp opened
      rw [h.text text mem, h'.text text (same ▸ mem)]
    · have file := h.file opened
      rw [same, h'.file (same ▸ opened)] at file
      exact (Option.some.inj file).symm
  obtain ⟨serial, generation, read⟩ := h.read
  obtain ⟨serial', generation', read'⟩ := h'.read
  rw [read, read', Document.undated_read, Document.undated_read, same, kind, text]

/-- The same is asked for by what is loaded in both projects. -/
theorem Accounted.asked_of_asked (one : OneKind l options.maxSize pairs)
    (h : Accounted l options pairs p) (h' : Accounted l options pairs q) {key : LinkKey}
    (asked : (p.now.links.status? key).isSome) (held : q.now.holds key.source = true) :
    (q.now.links.status? key).isSome := by
  obtain ⟨d, mem, statement⟩ := (h.coherent.asked key).mp asked
  obtain ⟨e, mem', source⟩ := Snapshot.holds_iff.mp held
  have same : d.undated = e.undated := (h.docs d mem).undated_eq one (h'.docs e mem')
    ((d.source_of_mem_keys statement).symm.trans source.symm)
  exact (h'.coherent.asked key).mpr ⟨e, mem', d.keys_of_undated same ▸ statement⟩

/-- A link that is not pending is what its load gives. -/
theorem Accounted.status_of_ended (h : Accounted l options pairs p) {key : LinkKey}
    (asked : (p.now.links.status? key).isSome) (ended : p.now.links.status? key ≠ some .pending) :
    p.now.links.status? key = some (.ofOutcome (l.load key.source key.path)) := by
  obtain ⟨s, status⟩ := Option.isSome_iff_exists.mp asked
  rcases h.status key s status with rfl | rfl
  · exact absurd status ended
  · exact status

/-- What is loaded in one project is loaded in another that is accounted for alike, once that has
ended the loads that led there. -/
theorem Accounted.holds_of_holds (one : OneKind l options.maxSize pairs)
    (h : Accounted l options pairs p) (h' : Accounted l options pairs q)
    (ended : ∀ key uri, p.now.links.status? key = some (.loaded uri) →
      q.now.links.status? key ≠ some .pending)
    {uri : Bytes} (held : p.now.holds uri = true) : q.now.holds uri = true := by
  obtain ⟨d, mem, rfl⟩ := Snapshot.holds_iff.mp held
  obtain ⟨o, opened, path⟩ := h.coherent.reached d mem
  clear held mem
  generalize d.uri = uri at path
  induction path with
  | refl => exact h'.coherent.opened o ((h'.opened o).mpr ((h.opened o).mp opened))
  | @tail u v _ step ih =>
    obtain ⟨key, rfl, leads⟩ := step
    have asked : (p.now.links.status? key).isSome := by rw [leads]; rfl
    have outcome := h.status_of_ended asked (by rw [leads]; simp)
    have outcome' := h'.status_of_ended (asked_of_asked one h h' asked ih) (ended key v leads)
    exact h'.coherent.leads key v (outcome'.trans (outcome.symm.trans leads))

theorem Accounted.status_of_status (one : OneKind l options.maxSize pairs)
    (h : Accounted l options pairs p) (h' : Accounted l options pairs q) (idle : p.loads = [])
    (idle' : q.loads = []) {key : LinkKey} {s : LinkStatus}
    (status : p.now.links.status? key = some s) : q.now.links.status? key = some s := by
  have asked : (p.now.links.status? key).isSome := by rw [status]; rfl
  have held : q.now.holds key.source = true :=
    holds_of_holds one h h' (fun key _ _ => h'.coherent.ended_of_idle idle' key)
      (h.coherent.holds_source asked)
  rw [h'.status_of_ended (asked_of_asked one h h' asked held) (h'.coherent.ended_of_idle idle' key),
    ← h.status_of_ended asked (h.coherent.ended_of_idle idle key), status]

/-- The same documents are loaded. -/
theorem Accounted.holds_eq (one : OneKind l options.maxSize pairs)
    (h : Accounted l options pairs p) (h' : Accounted l options pairs q) (idle : p.loads = [])
    (idle' : q.loads = []) (uri : Bytes) : p.now.holds uri = q.now.holds uri := by
  apply Bool.eq_iff_iff.mpr
  constructor
  · exact holds_of_holds one h h' fun key _ _ => h'.coherent.ended_of_idle idle' key
  · exact holds_of_holds one h' h fun key _ _ => h.coherent.ended_of_idle idle key

/-- Two projects that are accounted for alike agree when no load is under way. -/
theorem Accounted.agrees (one : OneKind l options.maxSize pairs)
    (h : Accounted l options pairs p) (h' : Accounted l options pairs q) (idle : p.loads = [])
    (idle' : q.loads = []) : p.now.Agrees q.now where
  distinct := h.coherent.docs
  distinct' := h'.coherent.docs
  serials := h.serials
  serials' := h'.serials
  document uri := by
    have held : (p.now.document? uri).isSome = (q.now.document? uri).isSome :=
      holds_eq one h h' idle idle' uri
    cases found : p.now.document? uri with
    | none =>
      rw [found] at held
      have none : q.now.document? uri = none := by simpa using held.symm
      rw [none]
    | some d =>
      rw [found] at held
      obtain ⟨e, found'⟩ := Option.isSome_iff_exists.mp held.symm
      obtain ⟨mem, here⟩ := Snapshot.mem_of_document? found
      obtain ⟨mem', here'⟩ := Snapshot.mem_of_document? found'
      rw [found', Option.map_some, Option.map_some,
        (h.docs d mem).undated_eq one (h'.docs e mem') (here.trans here'.symm)]
  status key := by
    ext s
    exact ⟨h.status_of_status one h' idle idle', h'.status_of_status one h idle' idle⟩
  opened uri := (h.opened uri).trans (h'.opened uri).symm

/-! ## Loads come to an end -/

/-- A load that ends makes no link pending that was not. -/
theorem ended_finishLoad (h : p.Coherent) {key other : LinkKey}
    {outcome : Except LoadError (Bytes × Bytes)} (asked : (p.now.links.status? key).isSome)
    (ended : other = key ∨ ∃ uri, p.now.links.status? other = some (.loaded uri)) :
    (p.finishLoad key outcome).now.links.status? other ≠ some .pending := by
  intro pending
  have before := (begins_finishLoad h asked outcome).status other .pending pending
  rw [status?_settleLink h.links] at before
  split_ifs at before with same
  · simp [ofOutcome_ne_pending] at before
  · obtain ⟨uri, loaded⟩ := ended.resolve_left same
    simp [loaded] at before

/-- No document is dropped while loads end. -/
theorem Accounted.holds_finishLoad (one : OneKind l options.maxSize pairs)
    (h : Accounted l options pairs p) {key : LinkKey} (begun : key ∈ p.loads)
    (asked : (p.now.links.status? key).isSome) {uri : Bytes} (held : p.now.holds uri = true) :
    (p.finishLoad key (l.load key.source key.path)).now.holds uri = true :=
  holds_of_holds one h (h.loads (.finish begun))
    (fun _ target loaded => ended_finishLoad h.coherent asked (.inr ⟨target, loaded⟩)) held

/-- What a load finds is loaded then. -/
theorem Accounted.holds_found (one : OneKind l options.maxSize pairs)
    (h : Accounted l options pairs p) {key : LinkKey} (begun : key ∈ p.loads)
    (asked : (p.now.links.status? key).isSome) {uri text : Bytes}
    (found : l.load key.source key.path = .ok (uri, text)) :
    (p.finishLoad key (l.load key.source key.path)).now.holds uri = true := by
  have after := h.loads (.finish begun)
  have still := asked_of_asked one h after asked
    (holds_finishLoad one h begun asked (h.coherent.holds_source asked))
  have status := after.status_of_ended still (ended_finishLoad h.coherent asked (.inl rfl))
  rw [found] at status after
  exact found ▸ after.coherent.leads key uri status

/-- What there is left to load: places, and then loads under way. -/
def remaining (l : Loader) (p : Project) : ℕ ×ₗ ℕ :=
  toLex ((l.places.toFinset.filter fun uri => ¬ p.now.holds uri = true).card, p.loads.length)

theorem remaining_lt_of_docs (docs : p'.now.docs = p.now.docs)
    (loads : p'.loads.length < p.loads.length) : remaining l p' < remaining l p := by
  have holds : p'.now.holds = p.now.holds := by
    funext uri
    rw [Snapshot.holds, Snapshot.document?, docs]
    rfl
  rw [remaining, remaining, holds, Prod.Lex.toLex_lt_toLex]
  exact .inr ⟨rfl, loads⟩

theorem remaining_lt_of_holds (kept : ∀ uri, p.now.holds uri = true → p'.now.holds uri = true)
    {uri : Bytes} (place : uri ∈ l.places) (unknown : ¬ p.now.holds uri = true)
    (new : p'.now.holds uri = true) : remaining l p' < remaining l p := by
  have fewer : (l.places.toFinset.filter fun uri => ¬ p'.now.holds uri = true).card <
      (l.places.toFinset.filter fun uri => ¬ p.now.holds uri = true).card := by
    apply Finset.card_lt_card
    refine Finset.ssubset_iff_subset_ne.mpr ⟨fun u mem => ?_, fun same => ?_⟩
    · rw [Finset.mem_filter] at mem ⊢
      exact ⟨mem.1, fun held => mem.2 (kept u held)⟩
    · have mem : uri ∈ l.places.toFinset.filter fun uri => ¬ p.now.holds uri = true :=
        Finset.mem_filter.mpr ⟨List.mem_toFinset.mpr place, unknown⟩
      rw [← same] at mem
      exact (Finset.mem_filter.mp mem).2 new
  rw [remaining, remaining, Prod.Lex.toLex_lt_toLex]
  exact .inl fewer

/-- With each load that ends there is less to load. -/
theorem Accounted.remaining_lt (one : OneKind l options.maxSize pairs)
    (h : Accounted l options pairs p) (step : Loads l.load p p') :
    remaining l p' < remaining l p := by
  obtain @⟨key, begun⟩ := step
  have fewer : (p.loads.erase key).length < p.loads.length := by
    rw [List.length_erase_of_mem begun]
    exact Nat.sub_lt (List.length_pos_of_mem begun) Nat.one_pos
  cases asked : p.now.links.status? key with
  | none =>
    rw [finishLoad_of_none asked]
    exact remaining_lt_of_docs rfl fewer
  | some s =>
    have known : (p.now.links.status? key).isSome = true := by rw [asked]; rfl
    rcases finishLoad_cases h.coherent known (l.load key.source key.path) with
      ⟨-, eq⟩ | ⟨uri, text, found, unknown, -⟩
    · rw [eq]
      exact remaining_lt_of_docs rfl fewer
    · exact remaining_lt_of_holds (fun _ => holds_finishLoad one h begun known)
        (Loader.mem_places_of_load found) unknown (holds_found one h begun known found)

/-- The loads come to an end in whatever order. -/
theorem Accounted.loads_end (one : OneKind l options.maxSize pairs)
    (h : Accounted l options pairs p) : Acc (fun after before => Loads l.load before after) p := by
  induction left : remaining l p using WellFoundedLT.induction generalizing p with
  | ind left ih =>
    subst left
    exact ⟨p, fun p' step => ih _ (h.remaining_lt one step) (h.loads step) rfl⟩

/-! ## Openings -/

theorem Opening.accounted_perm (h : Opening l options pairs' p) (order : pairs.Perm pairs')
    (distinct : (pairs.map Prod.fst).Nodup) (one : OneKind l options.maxSize pairs) :
    Accounted l options pairs p := by
  have accounted := h.accounted ((order.map Prod.fst).nodup_iff.mp distinct)
    (one.mono order.symm.subset)
  exact accounted.perm order.symm

theorem Opening.settle (h : Opening l options pairs p) : Opening l options pairs (p.settle l) := by
  have path : Relation.ReflTransGen (Loads l.load) p (p.settle l) := loads_settleRounds ..
  generalize p.settle l = p' at path
  induction path with
  | refl => exact h
  | tail _ step ih => exact ih.loads step

/-- Whether each document of a list imports only documents of the list. -/
def closes (l : Loader) (maxSize : Nat) (all : List (Bytes × DocumentKind × Bytes)) : Bool :=
  all.all fun (uri, kind, text) =>
    (Document.read 0 uri kind text ⟨0, maxSize⟩).imports.all fun i =>
      (l.load uri i.path).toOption.all fun (target, content) =>
        all.contains (target, .ofImport i.kind target, content)

/-- What can come to be read is in every list that has what is opened and all that it imports. -/
theorem Arrives.mem {maxSize : Nat} {all : List (Bytes × DocumentKind × Bytes)}
    (opened : ∀ pair ∈ pairs, (pair.1, .ofUri pair.1, pair.2) ∈ all)
    (closed : closes l maxSize all = true) {uri text : Bytes} {kind : DocumentKind}
    (h : Arrives l maxSize pairs uri kind text) : (uri, kind, text) ∈ all := by
  induction h with
  | opened mem => exact opened _ mem
  | imported _ asks found ih =>
    have imports := List.all_eq_true.mp (List.all_eq_true.mp closed _ ih) _ asks
    rw [found] at imports
    exact List.contains_iff_mem.mp imports

theorem oneKind_of_closes {maxSize : Nat} (all : List (Bytes × DocumentKind × Bytes))
    (opened : ∀ pair ∈ pairs, (pair.1, .ofUri pair.1, pair.2) ∈ all)
    (closed : closes l maxSize all = true)
    (one : ∀ d ∈ all, ∀ d' ∈ all, d.1 = d'.1 → d.2.1 = d'.2.1) : OneKind l maxSize pairs :=
  fun _ _ _ _ _ h h' => one _ (h.mem opened closed) _ (h'.mem opened closed) rfl

end

/-- Documents are opened, the last of which comes first, and all loads end after each of them. -/
def stepwise (l : Loader) : List (Bytes × Bytes) → Project
  | [] => {}
  | (uri, text) :: before => ((stepwise l before).openDocument uri text).1.settle l

/-- Documents are opened, the last of which comes first, and all loads end after that. -/
def atOnce (l : Loader) (pairs : List (Bytes × Bytes)) : Project :=
  let opened : Project := pairs.foldr (fun pair p => (openDocument p pair.1 pair.2).1) {}
  opened.settle l

theorem opening_stepwise (l : Loader) (pairs : List (Bytes × Bytes)) :
    Opening l {} pairs (stepwise l pairs) := by
  induction pairs with
  | nil => exact .new
  | cons pair before ih => exact (ih.opens _ _).settle

theorem opening_atOnce (l : Loader) (pairs : List (Bytes × Bytes)) :
    Opening l {} pairs (atOnce l pairs) := by
  refine Opening.settle ?_
  induction pairs with
  | nil => exact .new
  | cons pair before ih => exact ih.opens _ _

/-- Two files that import each other, and a protocol that one of them imports. -/
def webFiles : Loader :=
  { files := ((FileTree.write {} "/a.avdl" "import idl \"b.avdl\";").write
      "/b.avdl" "import idl \"a.avdl\";").write "/c.avpr" "[]" }

/-- Two documents that differ from their files, the last of which is opened first. -/
def web : List (Bytes × Bytes) :=
  [("/c.avpr", ""), ("/a.avdl", "import idl \"b.avdl\"; import protocol \"c.avpr\";")]

/-- A file that is imported as a protocol, but is none by its name. -/
def disputedFiles : Loader := { files := FileTree.write {} "/b.avdl" "" }

def disputed : List (Bytes × Bytes) :=
  [("/b.avdl", ""), ("/a.avdl", "import protocol \"b.avdl\";")]

end Project

end AvroIdl
