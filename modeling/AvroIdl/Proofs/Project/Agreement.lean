import AvroIdl.Proofs.Check.Undated
import AvroIdl.Proofs.Project.Index
import AvroIdl.Proofs.Resolution.Cache

/-!
# Snapshots that agree

Two snapshots agree if they hold the same documents, read at whatever time, with the same links. The
same is visible from a document in both, in the same order, and so the same problems are reported:
`Snapshot.Agrees.diagnostics`.
-/

namespace AvroIdl

namespace Document

variable {d d' : Document}

/-- What does not depend on when a document was read is the same for each time it is. -/
theorem congr_undated {α : Type} {f : Document → α} (strip : ∀ d, f d.undated = f d)
    (same : d.undated = d'.undated) : f d = f d' := by
  rw [← strip d, same, strip]

theorem uri_of_undated (same : d.undated = d'.undated) : d.uri = d'.uri :=
  congr_undated (fun _ => rfl) same

/-- Two finds that differ in when the document was read. -/
theorem find_cases {found found' : Option Document}
    (same : found.map undated = found'.map undated) :
    found = none ∧ found' = none ∨
      ∃ d d', found = some d ∧ found' = some d' ∧ d.undated = d'.undated := by
  cases found with
  | none => exact .inl ⟨rfl, Option.map_eq_none_iff.mp same.symm⟩
  | some d =>
    obtain ⟨d', rfl, eq⟩ := Option.map_eq_some_iff.mp same.symm
    exact .inr ⟨d, d', rfl, rfl, eq.symm⟩

theorem keys_of_undated (same : d.undated = d'.undated) : d.keys = d'.keys :=
  congr_undated (fun _ => rfl) same

theorem undated_tables (docs : List Document) : (docs.map Document.table).map Table.undated =
    (docs.map Document.undated).map Document.table := by
  rw [List.map_map, List.map_map]
  rfl

end Document

namespace Snapshot

/-- Two snapshots hold the same documents but for generations, in whatever order. -/
structure Agrees (s s' : Snapshot) : Prop where
  distinct : s.Distinct
  distinct' : s'.Distinct
  /-- Documents of one snapshot were read one after the other. -/
  serials : (s.docs.map Document.serial).Nodup
  serials' : (s'.docs.map Document.serial).Nodup
  document : ∀ uri, (s.document? uri).map Document.undated = (s'.document? uri).map Document.undated
  status : ∀ key, s.links.status? key = s'.links.status? key
  opened : ∀ uri, uri ∈ s.opened ↔ uri ∈ s'.opened

variable {s s' : Snapshot} {uri : Bytes} {d d' : Document}

theorem Agrees.status_eq (h : s.Agrees s') : s.links.status? = s'.links.status? := funext h.status

theorem Agrees.holds (h : s.Agrees s') (uri : Bytes) : s.holds uri = s'.holds uri := by
  have same := congrArg Option.isSome (h.document uri)
  rwa [Option.isSome_map, Option.isSome_map] at same

theorem Agrees.uris (h : s.Agrees s') :
    (s.docs.map Document.uri).Perm (s'.docs.map Document.uri) := by
  refine (List.perm_ext_iff_of_nodup h.distinct h.distinct').mpr fun uri => ?_
  rw [← holds_iff_mem, ← holds_iff_mem, h.holds]

/-- What is asked of a document by its URI does not depend on when it was read. -/
theorem Agrees.elim (h : s.Agrees s') {α : Type} (none : α) {f f' : Document → α}
    (strip : ∀ d d' : Document, d.undated = d'.undated → f d = f' d') (uri : Bytes) :
    (s.document? uri).elim none f = (s'.document? uri).elim none f' := by
  rcases Document.find_cases (h.document uri) with ⟨found, found'⟩ | ⟨d, d', found, found', same⟩
  · rw [found, found']
    rfl
  · rw [found, found']
    exact strip d d' same

theorem Agrees.targets (h : s.Agrees s') (same : d.undated = d'.undated) :
    d.targets s.links = d'.targets s'.links := by
  rw [Document.targets, Document.targets, d.keys_of_undated same, h.status_eq]

theorem Agrees.targetsOf (h : s.Agrees s') : s.targetsOf = s'.targetsOf := by
  funext uri
  exact h.elim [] (fun _ _ => h.targets) uri

/-- The same documents are reached, in the same order. -/
theorem Agrees.reach (h : s.Agrees s') (uri : Bytes) :
    (s.reach uri).map Document.undated = (s'.reach uri).map Document.undated := by
  rw [Snapshot.reach, Snapshot.reach, List.map_filterMap, List.map_filterMap, h.targetsOf,
    gather_perm (h.uris.filter _)]
  congr 1
  funext u
  exact h.document u

/-- No document is reached twice. -/
theorem nodup_reach (distinct : s.Distinct) (uri : Bytes) : (s.reach uri).Nodup := by
  refine List.Nodup.filterMap (fun u u' d found found' => ?_) (nodup_gather (distinct.filter _))
  rw [← (mem_of_document? found).2, ← (mem_of_document? found').2]

end Snapshot

/-- Tables with different serial numbers are all different. -/
theorem Scope.distinctImports_eq {s : Scope} (serials : (s.imports.map Table.serial).Nodup) :
    s.distinctImports = s.imports := by
  have all (ts : List Table) (serials : (ts.map Table.serial).Nodup) :
      ts.eraseDupsBy (fun a b => a.serial == b.serial) = ts := by
    induction ts with
    | nil => rfl
    | cons t rest ih =>
      rw [List.map_cons, List.nodup_cons] at serials
      have other : rest.filter (fun b => (b.serial == t.serial) = false) = rest := by
        rw [List.filter_eq_self]
        intro b mem
        have ne : b.serial ≠ t.serial := fun same => serials.1 (List.mem_map.mpr ⟨b, mem, same⟩)
        simpa using ne
      rw [List.eraseDupsBy_cons, other, ih serials.2]
  exact all _ serials

namespace Snapshot

variable {s s' : Snapshot} {uri : Bytes} {d d' : Document}

theorem distinctImports_scopeOf (distinct : s.Distinct)
    (serials : (s.docs.map Document.serial).Nodup) (d : Document) :
    (s.scopeOf d).distinctImports = (s.scopeOf d).imports := by
  have mem : ∀ e ∈ s.reach d.uri, e ∈ s.docs := by
    intro e reached
    obtain ⟨u, -, found⟩ := List.mem_filterMap.mp reached
    exact (mem_of_document? found).1
  apply Scope.distinctImports_eq
  rw [scopeOf, List.map_map]
  refine List.Nodup.map_on (fun a ha b hb same => ?_) (nodup_reach distinct d.uri)
  exact List.inj_on_of_nodup_map serials (mem a ha) (mem b hb) same

theorem Agrees.imports_scopeOf (h : s.Agrees s') (same : d.undated = d'.undated) :
    (s.scopeOf d).imports.map Table.undated = (s'.scopeOf d').imports.map Table.undated := by
  rw [scopeOf, scopeOf, Document.undated_tables, Document.undated_tables, d.uri_of_undated same,
    h.reach]

theorem Agrees.pending_scopeOf (h : s.Agrees s') (same : d.undated = d'.undated) :
    (s.scopeOf d).pending = (s'.scopeOf d').pending := by
  have strip (docs : List Document) (links : Links) : (docs.any fun e => e.isPending links) =
      (docs.map Document.undated).any fun e => e.isPending links := by
    rw [List.any_map]
    rfl
  have links (e : Document) : e.isPending s.links = e.isPending s'.links := by
    rw [Document.isPending, Document.isPending, h.status_eq]
  rw [scopeOf, scopeOf]
  dsimp only
  rw [strip (d :: s.reach d.uri), strip (d' :: s'.reach d'.uri), List.map_cons, List.map_cons, same,
    d.uri_of_undated same, h.reach]
  simp only [links]

/-- References mean the same in both snapshots. -/
theorem Agrees.resolveAll (h : s.Agrees s') (same : d.undated = d'.undated) :
    (s.scopeOf d).resolveAll.map Resolution.undated =
      (s'.scopeOf d').resolveAll.map Resolution.undated := by
  have references : (s.scopeOf d).own.references = (s'.scopeOf d').own.references :=
    Document.congr_undated (f := fun d => d.table.references) (fun _ => rfl) same
  rw [Scope.resolveAll, Scope.resolveAll, references, List.map_map, List.map_map]
  refine List.map_congr_left fun r _ => ?_
  apply r.undated_resolve
  · exact congrArg Document.table same
  · rw [distinctImports_scopeOf h.distinct h.serials,
      distinctImports_scopeOf h.distinct' h.serials', h.imports_scopeOf same]

theorem Agrees.targetOf (h : s.Agrees s') (status : LinkStatus) :
    (s.targetOf status).undated = (s'.targetOf status).undated := by
  have found : (status.target?.bind s.document?).map Document.undated =
      (status.target?.bind s'.document?).map Document.undated := by
    cases status.target? with
    | none => rfl
    | some uri => exact h.document uri
  rw [Snapshot.targetOf, Snapshot.targetOf]
  rcases Document.find_cases found with ⟨found, found'⟩ | ⟨d, d', found, found', same⟩
  · rw [found, found']
    rfl
  · rw [found, found']
    have table : d.table.undated = d'.table.undated := congrArg Document.table same
    simp only [ImportTarget.undated, Option.map_some, Option.elim_some, List.map_cons,
      Document.undated_tables, table, d.uri_of_undated same, h.reach]

theorem Agrees.importTargets (h : s.Agrees s') (same : d.undated = d'.undated) :
    (s.importTargets d).map ImportTarget.undated =
      (s'.importTargets d').map ImportTarget.undated := by
  rw [Snapshot.importTargets, Snapshot.importTargets, List.map_map, List.map_map,
    d.keys_of_undated same, h.status_eq]
  exact List.map_congr_left fun key _ => h.targetOf _

/-- The documents of both stand in the same order. -/
theorem Agrees.sorted (h : s.Agrees s') :
    s.documents.map Document.uri = s'.documents.map Document.uri := by
  have le (a b : Bytes) : (!b.before a) = true ↔ a ≤ b := by
    simp [Bytes.before]
  have trans (a b c : Bytes) (ab : (!b.before a) = true) (bc : (!c.before b) = true) :
      (!c.before a) = true := (le a c).mpr (List.le_trans ((le a b).mp ab) ((le b c).mp bc))
  have total (a b : Bytes) : ((!b.before a) || (!a.before b)) = true := by
    rw [Bool.or_eq_true, le, le]
    exact List.le_total a b
  have sorted (docs : List Document) :
      (docs.mergeSort fun a b => !b.uri.before a.uri).map Document.uri =
        (docs.map Document.uri).mergeSort fun a b => !b.before a :=
    List.map_mergeSort fun _ _ _ _ => rfl
  rw [documents, documents, sorted, sorted]
  refine List.Perm.eq_of_pairwise (fun a b _ _ ab ba => ?_) (List.pairwise_mergeSort trans total _)
    (List.pairwise_mergeSort trans total _) ?_
  · exact List.le_antisymm ((le a b).mp ab) ((le b a).mp ba)
  · exact (List.mergeSort_perm _ _).trans (h.uris.trans (List.mergeSort_perm _ _).symm)

theorem Agrees.edges (h : s.Agrees s') (same : d.undated = d'.undated) :
    s.edges d = s'.edges d' := by
  have imports : d.imports = d'.imports := Document.congr_undated (fun _ => rfl) same
  rw [Snapshot.edges, Snapshot.edges, imports, h.status_eq]
  refine List.filterMap_congr fun i _ => ?_
  rw [Document.key, Document.key, d.uri_of_undated same]

theorem graph_eq (distinct : s.Distinct) :
    s.graph = (s.documents.map Document.uri).map fun u => (u, (s.document? u).elim [] s.edges) := by
  rw [graph, List.map_map]
  refine List.map_congr_left fun d mem => ?_
  rw [Function.comp_apply, document?_eq_some distinct (List.mem_mergeSort.mp mem)]
  rfl

theorem Agrees.graph (h : s.Agrees s') : s.graph = s'.graph := by
  rw [graph_eq h.distinct, graph_eq h.distinct', h.sorted]
  refine List.map_congr_left fun u _ => ?_
  rw [h.elim [] fun _ _ => h.edges]

end Snapshot

/-- It makes no difference in which order reporters are named. -/
theorem CheckInput.problems_reporters (i : CheckInput) {reporters : List Bytes}
    (same : ∀ uri, uri ∈ reporters ↔ uri ∈ i.reporters) :
    { i with reporters }.problems = i.problems := by
  have contains : reporters.contains = i.reporters.contains := by
    funext uri
    simp [same]
  have cycle : { i with reporters }.checkCycle = i.checkCycle := by
    simp only [checkCycle, reporterOf, contains]
    rfl
  rw [problems, problems, cycle]
  rfl

namespace Snapshot

variable {s s' : Snapshot} {d d' : Document}

/-- The same problems are found in both snapshots. -/
theorem Agrees.check (h : s.Agrees s') (same : d.undated = d'.undated) (opts : CheckOptions) :
    opts.check (s.checkInput d (s.scopeOf d).resolveAll) =
      opts.check (s'.checkInput d' (s'.scopeOf d').resolveAll) := by
  have known (s : Snapshot) (d : Document) :
      (s.checkInput d (s.scopeOf d).resolveAll).results.length =
        (s.checkInput d (s.scopeOf d).resolveAll).own.references.length := List.length_map _
  have input : (s.checkInput d (s.scopeOf d).resolveAll).undated =
      { (s'.checkInput d' (s'.scopeOf d').resolveAll).undated with reporters := s.opened } := by
    have own : (s.scopeOf d).own.undated = (s'.scopeOf d').own.undated :=
      congrArg Document.table same
    simp only [CheckInput.undated, checkInput, CheckInput.own, own, h.imports_scopeOf same,
      h.pending_scopeOf same, h.resolveAll same, h.importTargets same, h.graph]
  have problems : (s.checkInput d (s.scopeOf d).resolveAll).problems =
      (s'.checkInput d' (s'.scopeOf d').resolveAll).problems := by
    rw [← CheckInput.problems_undated _ (known s d), ← CheckInput.problems_undated _ (known s' d'),
      input]
    exact CheckInput.problems_reporters _ h.opened
  have uri : (s.checkInput d (s.scopeOf d).resolveAll).own.uri =
      (s'.checkInput d' (s'.scopeOf d').resolveAll).own.uri := d.uri_of_undated same
  rw [CheckOptions.check, CheckOptions.check, problems, uri]

/-- The same problems are reported of both snapshots, where nothing is remembered. -/
theorem Agrees.diagnostics (h : s.Agrees s') (opts : CheckOptions)
    (interrupt : Option DocumentError) {c c' : Cache} (empty : c.entries = [])
    (empty' : c'.entries = []) (uri : Bytes) :
    (s.diagnostics opts interrupt c uri).2 = (s'.diagnostics opts interrupt c' uri).2 := by
  have resolve {c : Cache} (empty : c.entries = []) (scope : Scope) :
      (c.resolve scope).2 = scope.resolveAll :=
    Cache.resolve_eq (by rw [empty]; exact nofun)
  unfold Snapshot.diagnostics Snapshot.document
  rcases Document.find_cases (h.document uri) with ⟨found, found'⟩ | ⟨d, d', found, found', same⟩
  · rw [found, found']
  · rw [found, found']
    dsimp only
    have trees : d.tree?.map Tree.undated = d'.tree?.map Tree.undated :=
      congrArg Document.tree? same
    cases isTree : d.tree? with
    | none =>
      rw [isTree] at trees
      rw [Option.map_eq_none_iff.mp trees.symm]
      exact congrArg Except.ok
        (Document.congr_undated (f := (·.table.diagnostics)) (fun _ => rfl) same)
    | some tree =>
      rw [isTree] at trees
      obtain ⟨tree', isTree', eq⟩ := Option.map_eq_some_iff.mp trees.symm
      have errors : tree.diagnostics = tree'.diagnostics := by
        rw [← tree.diagnostics_undated, ← eq, tree'.diagnostics_undated]
      rw [isTree']
      cases interrupt with
      | some e => rfl
      | none =>
        dsimp only
        rw [resolve empty, resolve empty', errors, h.check same]

end Snapshot

end AvroIdl
