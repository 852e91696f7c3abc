import AvroIdl.Proofs.Project.Occurrence

/-!
# What is visible from a document

A document sees those that its statements lead to, directly or through others, each of them once.
The same search is made again from each statement's target, and what these searches find together is
what the document sees, apart from the document itself: `Project.scope_closure`.
-/

namespace AvroIdl

namespace Snapshot

variable {s : Snapshot} {u v uri : Bytes} {d e : Document} {a : Table}

/-- A statement of a loaded document has a link that leads to a URI. -/
def Imports (s : Snapshot) (u v : Bytes) : Prop :=
  ∃ d ∈ s.docs, d.uri = u ∧ ∃ i ∈ d.imports, s.links.status? (d.key i) = some (.loaded v)

/-- Whether a statement of a document has no link yet or a pending one. -/
def Waits (s : Snapshot) (d : Document) : Prop :=
  ∃ i ∈ d.imports,
    s.links.status? (d.key i) = none ∨ s.links.status? (d.key i) = some .pending

/-- What an import statement with this status leads to: the tables of the documents that can be
reached from the target, which is the first of them. -/
def Leading (s : Snapshot) (status : Option LinkStatus) (t : ImportTarget) : Prop :=
  match status with
  | none | some .pending => t.state = .pending ∧ t.tables = []
  | some (.broken e) => t.state = (LinkStatus.broken e).importState ∧ t.error = some e ∧ t.tables = []
  | some (.loaded v) => t.state = .loaded ∧ t.uri = v ∧ (t.tables.map Table.uri).Nodup ∧
    ∀ a, a ∈ t.tables ↔ ∃ e ∈ s.docs, Relation.ReflTransGen s.Imports v e.uri ∧ e.table = a

theorem mem_targetsOf_iff (distinct : s.Distinct) : v ∈ s.targetsOf u ↔ s.Imports u v := by
  rw [mem_targetsOf distinct]
  simp [Imports, Document.keys]

theorem isPending_iff : d.isPending s.links = true ↔ s.Waits d := by
  simp only [Document.isPending, Document.keys, List.any_map, List.any_eq_true, Waits,
    Function.comp_apply]
  refine exists_congr fun i => and_congr_right fun _ => ?_
  cases s.links.status? (d.key i) <;> simp

/-! ## Searching -/

/-- What is found from a document are the others that can be reached in one or more steps. A way
there may come back to the document: the search starts again from its last visit. -/
theorem mem_reach (distinct : s.Distinct) :
    e ∈ s.reach u ↔ e ∈ s.docs ∧ e.uri ≠ u ∧ Relation.TransGen s.Imports u e.uri := by
  have others (v : Bytes) : v ∈ (s.docs.map Document.uri).filter (· ≠ u) ↔
      (∃ d ∈ s.docs, d.uri = v) ∧ v ≠ u := by
    simp
  rw [reach, List.mem_filterMap]
  constructor
  · rintro ⟨v, mem, found⟩
    obtain ⟨held, rfl⟩ := mem_of_document? found
    have inside := gather_subset mem
    obtain ⟨w, start, -, path⟩ := mem_gather.mp mem
    refine ⟨held, ((others _).mp inside).2, .head' ((mem_targetsOf_iff distinct).mp start) ?_⟩
    refine Relation.ReflTransGen.mono (fun a b step => ?_) _ _ path
    exact (mem_targetsOf_iff distinct).mp step.1
  · rintro ⟨held, other, path⟩
    refine ⟨e.uri, ?_, document?_eq_some distinct held⟩
    have inside := (others e.uri).mpr ⟨⟨e, held, rfl⟩, other⟩
    generalize e.uri = v at path inside
    clear held other
    induction path with
    | single step => exact pending_mem_gather ((mem_targetsOf_iff distinct).mpr step) inside
    | @tail b v _ step ih =>
      by_cases back : b = u
      · exact pending_mem_gather ((mem_targetsOf_iff distinct).mpr (back ▸ step)) inside
      · have loaded : ∃ d ∈ s.docs, d.uri = b := step.imp fun d h => ⟨h.1, h.2.1⟩
        have before := ih ((others b).mpr ⟨loaded, back⟩)
        exact next_mem_gather before ((mem_targetsOf_iff distinct).mpr step) inside

theorem map_uri_filterMap_document? {uris : List Bytes} (held : uris ⊆ s.docs.map Document.uri) :
    (uris.filterMap s.document?).map Document.uri = uris := by
  induction uris with
  | nil => rfl
  | cons u rest ih =>
    obtain ⟨first, others⟩ := List.cons_subset.mp held
    cases found : s.document? u with
    | none =>
      obtain ⟨d, mem, here⟩ := List.mem_map.mp first
      exact absurd here (ne_of_document? found d mem)
    | some d =>
      rw [List.filterMap_cons_some found, List.map_cons, ih others, (mem_of_document? found).2]

/-- No document is found twice. -/
theorem nodup_uri_reach (distinct : s.Distinct) (u : Bytes) :
    ((s.reach u).map Document.uri).Nodup := by
  rw [reach, map_uri_filterMap_document?]
  · exact nodup_gather (distinct.filter _)
  · exact List.Subset.trans gather_subset (List.filter_subset_self _)

/-- A document and what is found from it are what can be reached in any number of steps. -/
theorem mem_cons_reach (distinct : s.Distinct) (held : d ∈ s.docs) :
    e ∈ d :: s.reach d.uri ↔ e ∈ s.docs ∧ Relation.ReflTransGen s.Imports d.uri e.uri := by
  rw [List.mem_cons, mem_reach distinct]
  constructor
  · rintro (rfl | ⟨mem, -, path⟩)
    · exact ⟨held, .refl⟩
    · exact ⟨mem, path.to_reflTransGen⟩
  · rintro ⟨mem, path⟩
    by_cases same : e.uri = d.uri
    · exact .inl (List.inj_on_of_nodup_map distinct mem held same)
    · rcases Relation.reflTransGen_iff_eq_or_transGen.mp path with eq | path
      · exact absurd eq same
      · exact .inr ⟨mem, same, path⟩

/-! ## What is found -/

theorem mem_imports_scopeOf (distinct : s.Distinct) :
    a ∈ (s.scopeOf d).imports ↔ ∃ e ∈ s.docs, e.uri ≠ d.uri ∧
      Relation.TransGen s.Imports d.uri e.uri ∧ e.table = a := by
  rw [scopeOf, List.mem_map]
  simp only [mem_reach distinct, and_assoc]

theorem nodup_imports_scopeOf (distinct : s.Distinct) (d : Document) :
    ((s.scopeOf d).imports.map Table.uri).Nodup := by
  rw [scopeOf, List.map_map]
  exact nodup_uri_reach distinct d.uri

theorem pending_scopeOf (distinct : s.Distinct) (held : d ∈ s.docs) :
    (s.scopeOf d).pending = true ↔
      ∃ e ∈ s.docs, Relation.ReflTransGen s.Imports d.uri e.uri ∧ s.Waits e := by
  simp only [scopeOf, List.any_eq_true, isPending_iff, mem_cons_reach distinct held, and_assoc]

/-- What a target brings with it is what can be reached from it. -/
theorem leading_targetOf (distinct : s.Distinct) (status : Option LinkStatus) :
    s.Leading status (s.targetOf (status.getD .pending)) := by
  match status with
  | none | some .pending | some (.broken e) => simp [Leading, targetOf, LinkStatus.target?,
      LinkStatus.importState, LinkStatus.error?]
  | some (.loaded v) =>
    have tables : (s.targetOf (.loaded v)).tables =
        (s.document? v).elim [] fun d => (d :: s.reach d.uri).map Document.table := rfl
    rw [Leading, Option.getD_some, tables]
    refine ⟨rfl, rfl, ?_⟩
    cases found : s.document? v with
    | none =>
      have unknown := ne_of_document? found
      refine ⟨.nil, fun a => iff_of_false List.not_mem_nil ?_⟩
      rintro ⟨e, held, path, -⟩
      rcases Relation.ReflTransGen.cases_head path with eq | ⟨w, ⟨d, mem, here, -⟩, -⟩
      · exact unknown e held eq.symm
      · exact unknown d mem here
    | some d =>
      obtain ⟨held, rfl⟩ := mem_of_document? found
      rw [Option.elim_some, List.map_map]
      refine ⟨List.nodup_cons.mpr ⟨fun mem => ?_, nodup_uri_reach distinct d.uri⟩, fun a => ?_⟩
      · obtain ⟨e, reached, same⟩ := List.mem_map.mp mem
        exact ((mem_reach distinct).mp reached).2.1 same
      · simp only [List.mem_map, mem_cons_reach distinct held, and_assoc]

/-- There is one target for each import statement. -/
theorem leading_importTargets (distinct : s.Distinct) (d : Document) :
    List.Forall₂ (fun i t => s.Leading (s.links.status? (d.key i)) t) d.imports
      (s.importTargets d) := by
  rw [importTargets, Document.keys, List.map_map, List.forall₂_map_right_iff, List.forall₂_same]
  exact fun i _ => leading_targetOf distinct _

theorem Leading.mem_tables {status : Option LinkStatus} {t : ImportTarget}
    (leading : s.Leading status t) :
    a ∈ t.tables ↔ ∃ v, status = some (.loaded v) ∧
      ∃ e ∈ s.docs, Relation.ReflTransGen s.Imports v e.uri ∧ e.table = a := by
  match status with
  | none | some .pending =>
    rw [leading.2]
    simp
  | some (.broken e) =>
    rw [leading.2.2]
    simp
  | some (.loaded v) =>
    rw [leading.2.2.2 a]
    simp

/-- What the statements of a document lead to together. -/
theorem mem_tables_importTargets (distinct : s.Distinct) (held : d ∈ s.docs) :
    (∃ t ∈ s.importTargets d, a ∈ t.tables) ↔
      ∃ e ∈ s.docs, Relation.TransGen s.Imports d.uri e.uri ∧ e.table = a := by
  have target (i : Import) : a ∈ (s.targetOf ((s.links.status? (d.key i)).getD .pending)).tables ↔
      ∃ v, s.links.status? (d.key i) = some (.loaded v) ∧
        ∃ e ∈ s.docs, Relation.ReflTransGen s.Imports v e.uri ∧ e.table = a :=
    (leading_targetOf distinct _).mem_tables
  rw [importTargets, Document.keys, List.map_map]
  constructor
  · rintro ⟨t, mem, there⟩
    obtain ⟨i, statement, rfl⟩ := List.mem_map.mp mem
    obtain ⟨v, link, e, mem, path, rfl⟩ := (target i).mp there
    exact ⟨e, mem, .head' ⟨d, held, rfl, i, statement, link⟩ path, rfl⟩
  · rintro ⟨e, mem, path, rfl⟩
    obtain ⟨v, ⟨d', held', same, i, statement, link⟩, rest⟩ := Relation.TransGen.head'_iff.mp path
    obtain rfl := List.inj_on_of_nodup_map distinct held' held same
    exact ⟨_, List.mem_map_of_mem statement, (target i).mpr ⟨v, link, e, mem, rest, rfl⟩⟩

end Snapshot

namespace Project

/-- Whatever has happened to a project, the scope of a loaded document holds the tables of the other
documents that can be reached from it through links, each of them once. It is pending just if the
document or one that can be reached has a statement that waits for its link. Each import statement
has its target, and the targets together bring the same tables, apart from the document's own. -/
theorem scope_closure (options : ProjectOptions) (occurrences : List Occurrence) (uri : Bytes)
    (d : Document) (held : (after options occurrences).now.document? uri = some d) :
    let s := (after options occurrences).now
    ∃ scope targets, s.scope uri = .ok (scope, targets) ∧ scope.own = d.table ∧
      (scope.imports.map Table.uri).Nodup ∧
      (∀ a, a ∈ scope.imports ↔ ∃ e ∈ s.docs, e.uri ≠ uri ∧
        Relation.TransGen s.Imports uri e.uri ∧ e.table = a) ∧
      (scope.pending = true ↔
        ∃ e ∈ s.docs, Relation.ReflTransGen s.Imports uri e.uri ∧ s.Waits e) ∧
      List.Forall₂ (fun i t => s.Leading (s.links.status? (d.key i)) t) d.imports targets ∧
      ∀ a, a ∈ scope.imports ↔ a ≠ d.table ∧ ∃ t ∈ targets, a ∈ t.tables := by
  have distinct := distinct_after options occurrences
  obtain ⟨mem, rfl⟩ := Snapshot.mem_of_document? held
  refine ⟨_, _, ?_, rfl, Snapshot.nodup_imports_scopeOf distinct d,
    fun a => Snapshot.mem_imports_scopeOf distinct, Snapshot.pending_scopeOf distinct mem,
    Snapshot.leading_importTargets distinct d, fun a => ?_⟩
  · rw [Snapshot.scope, Snapshot.document, held]
    rfl
  · rw [Snapshot.mem_imports_scopeOf distinct, Snapshot.mem_tables_importTargets distinct mem]
    constructor
    · rintro ⟨e, here, other, path, rfl⟩
      exact ⟨fun same => other (congrArg Table.uri same), e, here, path, rfl⟩
    · rintro ⟨other, e, here, path, rfl⟩
      refine ⟨e, here, fun same => other ?_, path, rfl⟩
      rw [List.inj_on_of_nodup_map distinct here mem same]

/-- Two documents import each other, the second one also itself and a file that is not there yet. -/
def entangled : List Occurrence :=
  [.openDocument "/a.avdl" "import idl \"b.avdl\";",
    .finishLoad ⟨"/a.avdl", "b.avdl", .idl⟩
      (.ok ("/b.avdl", "import idl \"a.avdl\"; import idl \"b.avdl\"; import idl \"c.avdl\";")),
    .finishLoad ⟨"/b.avdl", "a.avdl", .idl⟩ (.ok ("/a.avdl", "")),
    .finishLoad ⟨"/b.avdl", "b.avdl", .idl⟩ (.ok ("/b.avdl", ""))]

theorem scope_closure_entangled :
    ∃ d, (after {} entangled).now.document? "/a.avdl" = some d ∧
      ∃ scope targets, (after {} entangled).now.scope "/a.avdl" = .ok (scope, targets) ∧
        (scope.imports.map Table.uri).Nodup ∧
        ∀ a, a ∈ scope.imports ↔ a ≠ d.table ∧ ∃ t ∈ targets, a ∈ t.tables := by
  have held : ((after {} entangled).now.document? "/a.avdl").isSome = true := by decide +kernel
  obtain ⟨d, found⟩ := Option.isSome_iff_exists.mp held
  obtain ⟨scope, targets, eq, -, once, -, -, -, same⟩ := scope_closure {} entangled _ d found
  exact ⟨d, found, scope, targets, eq, once, same⟩

end Project

end AvroIdl
