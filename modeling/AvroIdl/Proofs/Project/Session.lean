import AvroIdl.Proofs.Project.Index
import Mathlib.Data.List.Perm.Subperm

/-!
# Sessions

A session is what an editor asks of a project, one operation after the other. After each of them the
loads under way end, in any order, with what the files are then. At that point the project holds
exactly what is open and all that it leads to, through import cycles too:
`Project.index_exact`.
-/

namespace AvroIdl

/-- What an editor asks of a project. -/
inductive Operation where
  | openDocument (uri text : Bytes)
  | update (uri : Bytes) (edit : Edit)
  | closeDocument (uri : Bytes)
  | refresh
  deriving DecidableEq, Repr

namespace Operation

/-- Whether a document is open after some operations, the last of which comes first. -/
def leavesOpen (uri : Bytes) : List Operation → Bool
  | [] => false
  | openDocument u _ :: before => u = uri || leavesOpen uri before
  | closeDocument u :: before => u ≠ uri && leavesOpen uri before
  | update _ _ :: before | refresh :: before => leavesOpen uri before

end Operation

/-- The URI and the text of what a document imports by a path, as long as no file changes. -/
abbrev Load := Bytes → Bytes → Except LoadError (Bytes × Bytes)

namespace Project

def perform (p : Project) : Operation → Project
  | .openDocument uri text => (p.openDocument uri text).1
  | .update uri edit => (p.update uri edit).1
  | .closeDocument uri => p.closeDocument uri
  | .refresh => p.refresh

/-- One of the loads under way ends. -/
inductive Loads (load : Load) (p : Project) : Project → Prop where
  | finish {key : LinkKey} (begun : key ∈ p.loads) :
    Loads load p (p.finishLoad key (load key.source key.path))

/-- A new project after some operations, the last of which comes first. After each of them all loads
have ended. -/
inductive Reached (options : ProjectOptions) : List Operation → Project → Prop where
  | new : Reached options [] { options }
  | step {operations : List Operation} {p p' : Project} (before : Reached options operations p)
    (operation : Operation) (load : Load)
    (loaded : Relation.ReflTransGen (Loads load) (p.perform operation) p')
    (idle : p'.loads = []) : Reached options (operation :: operations) p'

variable {p p' p'' : Project} {d : Document} {key : LinkKey} {load : Load}

/-! ## Loads that are begun -/

/-- Loads are begun of what had no link before, and links are dropped. -/
structure Begins (p p' : Project) : Prop where
  opened : p'.now.opened = p.now.opened
  loads : ∀ key ∈ p'.loads, key ∈ p.loads ∨ p.now.links.status? key = none
  status : ∀ key s, p'.now.links.status? key = some s →
    p.now.links.status? key = some s ∨ p.now.links.status? key = none ∧ s = .pending

theorem Begins.refl (p : Project) : p.Begins p := ⟨rfl, fun _ => .inl, fun _ _ => .inl⟩

theorem begins_of_schedules {keys : List LinkKey} (h : Schedules keys p p') : p.Begins p' := by
  refine ⟨h.opened, fun key begun => ?_, fun key s status => ?_⟩
  · obtain ⟨new, loads, unknown⟩ := h.loads
    rw [loads, List.mem_append, unknown] at begun
    exact begun.imp_right And.right
  · rw [h.status] at status
    cases known : p.now.links.status? key with
    | none =>
      rw [known] at status
      by_cases asked : key ∈ keys <;> simp [asked] at status
      exact .inr ⟨rfl, status.symm⟩
    | some s' =>
      rw [known] at status
      exact .inl status

theorem Begins.sweep (h : p.Begins p') (links : p'.now.links.Distinct) : p.Begins p'.sweep :=
  ⟨h.opened, h.loads, fun key s status => h.status key s ((status?_sweep links).mp status).1⟩

theorem begins_publish (running : p.closed = false) (links : p.now.links.Distinct) (d : Document) :
    p.Begins (p.publish d) := by
  have scheduled := schedules_schedule (p := p.put d) running links d
  have begins := (begins_of_schedules scheduled).sweep scheduled.distinct
  exact ⟨begins.opened, begins.loads, begins.status⟩

/-- What is being loaded is pending, or has been loaded already. -/
def Expects (load : Load) (p : Project) : Prop :=
  ∀ key ∈ p.loads, ∀ s, p.now.links.status? key = some s →
    s = .pending ∨ s = .ofOutcome (load key.source key.path)

theorem Expects.begins (h : p.Expects load) (b : p.Begins p') : p'.Expects load := by
  intro key begun s status
  rcases b.status key s status with known | ⟨-, pending⟩
  · rcases b.loads key begun with before | unknown
    · exact h key before s known
    · rw [unknown] at known
      contradiction
  · exact .inl pending

theorem expects_of_idle (idle : p.loads = []) : p.Expects load := by
  intro key begun
  rw [idle] at begun
  contradiction

/-! ## Operations -/

theorem Coherent.perform (h : p.Coherent) (operation : Operation) :
    (p.perform operation).Coherent := by
  cases operation with
  | openDocument uri text => exact h.openDocument uri text
  | update uri edit => exact h.update uri edit
  | closeDocument uri => exact h.closeDocument uri
  | refresh => exact h.refresh

theorem begins_openDocument (h : p.Coherent) (uri text : Bytes) :
    (p.mark uri).Begins (p.openDocument uri text).1 := by
  rw [openDocument_eq]
  exact begins_publish (p := p.mark uri) h.running h.links _

theorem begins_update (h : p.Coherent) (uri : Bytes) (edit : Edit) :
    p.Begins (p.update uri edit).1 := by
  unfold Project.update
  split
  next => exact .refl p
  next =>
    dsimp only
    split
    next => exact ⟨rfl, fun _ => .inl, fun _ _ => .inl⟩
    next d edited =>
      have begins := begins_publish (p := p.interrupt uri) h.running h.links d
      exact ⟨begins.opened, begins.loads, begins.status⟩

theorem begins_refresh (h : p.Coherent) : p.retry.Begins p.refresh := by
  have links : p.retry.now.links.Distinct := h.links.sublist (List.filter_sublist.map _)
  have begins := begins_of_schedules (schedules_docs (p := p.retry) h.running links p.now.docs)
  rw [refresh_eq]
  exact ⟨begins.opened, begins.loads, begins.status⟩

/-- Where no load is under way, what an operation begins to load is pending. -/
theorem expects_perform (h : p.Coherent) (idle : p.loads = []) (operation : Operation) :
    (p.perform operation).Expects load := by
  cases operation with
  | openDocument uri text =>
    exact (expects_of_idle (p := p.mark uri) idle).begins (begins_openDocument h uri text)
  | update uri edit => exact (expects_of_idle idle).begins (begins_update h uri edit)
  | closeDocument uri => exact expects_of_idle (p := p.closeDocument uri) idle
  | refresh => exact (expects_of_idle (p := p.retry) idle).begins (begins_refresh h)

/-- The open documents follow the operations. -/
theorem mem_opened_perform (h : p.Coherent) {operations : List Operation}
    (before : ∀ uri, uri ∈ p.now.opened ↔ Operation.leavesOpen uri operations = true)
    (operation : Operation) (uri : Bytes) :
    uri ∈ (p.perform operation).now.opened ↔
      Operation.leavesOpen uri (operation :: operations) = true := by
  cases operation with
  | openDocument u text =>
    rw [Project.perform, (begins_openDocument h u text).opened, mem_opened_mark, before,
      Operation.leavesOpen, Bool.or_eq_true, decide_eq_true_eq, eq_comm]
  | update u edit =>
    rw [Project.perform, (begins_update h u edit).opened, before]
    rfl
  | closeDocument u =>
    have opened : (p.closeDocument u).now.opened = p.now.opened.filter (· ≠ u) := rfl
    rw [Project.perform, opened, List.mem_filter, before, and_comm, Operation.leavesOpen,
      Bool.and_eq_true, decide_eq_true_eq, decide_eq_true_eq, ne_comm]
  | refresh =>
    rw [Project.perform, (begins_refresh h).opened]
    exact before uri

/-! ## Loads that end -/

/-- A load that ends begins others. -/
theorem begins_finishLoad (h : p.Coherent) (asked : (p.now.links.status? key).isSome)
    (outcome : Except LoadError (Bytes × Bytes)) :
    (p.settleLink key outcome).Begins (p.finishLoad key outcome) := by
  rcases finishLoad_cases h asked outcome with ⟨-, eq⟩ | ⟨uri, text, -, -, eq⟩
  · rw [eq]
    exact ⟨rfl, fun _ => .inl, fun _ _ => .inl⟩
  · have begins := begins_publish (p := p.settleLink key outcome) h.running
      (Links.distinct_set h.links) (p.read uri (.ofImport key.kind uri) text 1)
    rw [eq]
    exact ⟨begins.opened, begins.loads, begins.status⟩

theorem opened_finishLoad (h : p.Coherent) (outcome : Except LoadError (Bytes × Bytes)) :
    (p.finishLoad key outcome).now.opened = p.now.opened := by
  cases asked : p.now.links.status? key with
  | none => rw [finishLoad_of_none asked]
  | some s => exact (begins_finishLoad h (asked ▸ rfl) outcome).opened

theorem Expects.finishLoad (h : p.Coherent) (e : p.Expects load) :
    (p.finishLoad key (load key.source key.path)).Expects load := by
  cases asked : p.now.links.status? key with
  | none =>
    rw [finishLoad_of_none asked]
    exact fun other begun => e other (List.mem_of_mem_erase begun)
  | some s =>
    refine Expects.begins ?_ (begins_finishLoad h (asked ▸ rfl) _)
    intro other begun s status
    rw [status?_settleLink h.links] at status
    split_ifs at status with same
    · exact .inr (same ▸ (Option.some.inj status).symm)
    · exact e other (List.mem_of_mem_erase begun) s status

theorem coherent_new (options : ProjectOptions) : Coherent { options } where
  running := rfl
  docs := .nil
  links := .nil
  opened _ mem := absurd mem List.not_mem_nil
  leads key uri leads := by simp [Links.status?] at leads
  waits key pending := by simp [Links.status?] at pending
  asked key := by simp [Links.status?]
  reached _ mem := absurd mem List.not_mem_nil

/-- What stays while loads end. -/
theorem coherent_of_loads (h : p.Coherent) (e : p.Expects load)
    (path : Relation.ReflTransGen (Loads load) p p') :
    p'.Coherent ∧ p'.Expects load ∧ p'.now.opened = p.now.opened := by
  induction path with
  | refl => exact ⟨h, e, rfl⟩
  | tail _ step ih =>
    obtain ⟨h, e, opened⟩ := ih
    cases step with
    | finish begun =>
      exact ⟨h.finishLoad (e _ begun), e.finishLoad h, (opened_finishLoad h _).trans opened⟩

/-! ## Settling -/

theorem loads_schedule (p : Project) (d : Document) :
    ∃ new, (p.schedule d).loads = p.loads ++ new := by
  have asked (keys : List LinkKey) (p : Project) :
      ∃ new, (keys.foldl ask p).loads = p.loads ++ new := by
    induction keys generalizing p with
    | nil => exact ⟨[], (List.append_nil _).symm⟩
    | cons key rest ih =>
      obtain ⟨new, loads⟩ := ih (p.ask key)
      rw [List.foldl_cons, loads, ask]
      split_ifs
      · exact ⟨new, rfl⟩
      · exact ⟨key :: new, by simp⟩
  unfold schedule
  split_ifs
  · exact ⟨[], (List.append_nil _).symm⟩
  · exact asked d.keys p

theorem loads_finishLoad (p : Project) (key : LinkKey)
    (outcome : Except LoadError (Bytes × Bytes)) :
    ∃ new, (p.finishLoad key outcome).loads = p.loads.erase key ++ new := by
  have same {q : Project} (loads : q.loads = p.loads.erase key) :
      ∃ new, q.loads = p.loads.erase key ++ new := ⟨[], by rw [loads, List.append_nil]⟩
  unfold finishLoad
  dsimp only
  split_ifs
  · exact same rfl
  · split
    next => exact same rfl
    next uri text =>
      unfold loaded?
      split_ifs
      · exact same rfl
      · exact loads_schedule _ _

/-- The loads that are due end one after the other. -/
theorem loads_of_due (l : Loader) {due : List LinkKey} (begun : due.Subperm p.loads) :
    Relation.ReflTransGen (Loads l.load) p
      (due.foldl (fun p key => p.finishLoad key (l.load key.source key.path)) p) := by
  induction due generalizing p with
  | nil => exact .refl
  | cons key rest ih =>
    have mem : key ∈ p.loads := begun.subset List.mem_cons_self
    refine .head (.finish mem) (ih ?_)
    obtain ⟨new, loads⟩ := p.loads_finishLoad key (l.load key.source key.path)
    have left : rest.Subperm (p.loads.erase key) := by simpa using begun.erase key
    rw [loads]
    exact left.trans (List.sublist_append_left _ _).subperm

theorem loads_settleRounds (l : Loader) (ready : LinkKey → Bool) (n : Nat) (p : Project) :
    Relation.ReflTransGen (Loads l.load) p (settleRounds l ready n p) := by
  induction n generalizing p with
  | zero => exact .refl
  | succ n ih =>
    unfold settleRounds
    split
    next => exact .refl
    next => exact (loads_of_due l List.filter_sublist.subperm).trans (ih _)

/-! ## Sessions -/

/-- No link is pending when no load is under way. -/
theorem Coherent.ended_of_idle (h : p.Coherent) (idle : p.loads = []) (key : LinkKey) :
    p.now.links.status? key ≠ some .pending := by
  intro pending
  have waits := h.waits key pending
  rw [idle] at waits
  contradiction

variable {options : ProjectOptions} {operations : List Operation}

/-- A project is coherent whenever no load is under way. -/
theorem Reached.coherent (h : Reached options operations p) :
    p.Coherent ∧ p.loads = [] ∧
      ∀ uri, uri ∈ p.now.opened ↔ Operation.leavesOpen uri operations = true := by
  induction h with
  | new => exact ⟨coherent_new options, rfl, by simp [Operation.leavesOpen]⟩
  | step _ operation load loaded idle ih =>
    obtain ⟨h, before, opened⟩ := ih
    have after := coherent_of_loads (h.perform operation)
      (expects_perform h before operation) loaded
    refine ⟨after.1, idle, fun uri => ?_⟩
    rw [after.2.2]
    exact mem_opened_perform h opened operation uri

/-- Whenever no load is under way, the loaded documents are those that are open and those that they
lead to. There is one link for each thing that the statements of a loaded document ask for. None is
pending, and those that are loaded lead to loaded documents. -/
theorem index_exact (h : Reached options operations p) :
    (∀ uri, p.now.holds uri = true ↔
      ∃ o, Operation.leavesOpen o operations = true ∧
        Relation.ReflTransGen p.now.Leads o uri) ∧
    p.now.Distinct ∧ p.now.links.Distinct ∧
    (∀ key, (p.now.links.status? key).isSome ↔
      ∃ d ∈ p.now.docs, ∃ i ∈ d.imports, key = ⟨d.uri, i.path, i.kind⟩) ∧
    (∀ key uri, p.now.links.status? key = some (.loaded uri) → p.now.holds uri = true) ∧
    ∀ key, p.now.links.status? key ≠ some .pending := by
  obtain ⟨h, idle, opened⟩ := h.coherent
  refine ⟨fun uri => ⟨fun held => ?_, ?_⟩, h.docs, h.links, fun key => ?_, h.leads,
    h.ended_of_idle idle⟩
  · obtain ⟨d, mem, rfl⟩ := Snapshot.holds_iff.mp held
    obtain ⟨o, start, path⟩ := h.reached d mem
    exact ⟨o, (opened o).mp start, path⟩
  · rintro ⟨o, start, path⟩
    cases path with
    | refl => exact h.opened uri ((opened uri).mpr start)
    | tail _ step =>
      obtain ⟨key, -, leads⟩ := step
      exact h.leads key uri leads
  · rw [h.asked]
    simp [Document.keys, Document.key, eq_comm]

/-- Two files that import each other, one of which imports itself. -/
def ringFiles : Loader :=
  { files := (FileTree.write {} "/a.avdl" "import idl \"b.avdl\";").write
      "/b.avdl" "import idl \"a.avdl\"; import idl \"b.avdl\";" }

/-- The first document of the ring is opened, then the second, and the first is closed again. -/
def ring : List Operation :=
  [.closeDocument "/a.avdl", .openDocument "/b.avdl" "import idl \"a.avdl\";",
    .openDocument "/a.avdl" "import idl \"b.avdl\";"]

/-- A new project after some operations, the last of which comes first, and all loads. -/
def settled (l : Loader) : List Operation → Project
  | [] => {}
  | operation :: before => ((settled l before).perform operation).settle l

theorem index_exact_ring :
    Reached {} ring (settled ringFiles ring) ∧
      (settled ringFiles ring).now.holds "/a.avdl" = true ∧
      Operation.leavesOpen "/a.avdl" ring = false ∧
      ∃ o, Operation.leavesOpen o ring = true ∧
        Relation.ReflTransGen (settled ringFiles ring).now.Leads o "/a.avdl" := by
  have next {operations : List Operation} (operation : Operation)
      (before : Reached {} operations (settled ringFiles operations))
      (idle : (settled ringFiles (operation :: operations)).loads = []) :
      Reached {} (operation :: operations) (settled ringFiles (operation :: operations)) :=
    before.step operation ringFiles.load (loads_settleRounds ..) idle
  have session : Reached {} ring (settled ringFiles ring) :=
    next _ (next _ (next _ .new (by decide +kernel)) (by decide +kernel)) (by decide +kernel)
  have held : (settled ringFiles ring).now.holds "/a.avdl" = true := by decide +kernel
  exact ⟨session, held, by decide, (index_exact session).1 _ |>.mp held⟩

end Project

end AvroIdl
