import AvroIdl.Proofs.Check.Duplicates
import AvroIdl.Proofs.Project.Visibility

/-!
# Names that are declared by several documents

The check of a document counts the imported declarations of a name, and the import statements that
bring it. A document sees what its statements bring. So wherever there are two declarations and two
statements, some two statements bring different declarations: `CheckInput.Of.through_iff`. With that,
`Project.duplicates_reported` says what is reported about names that several documents declare.
-/

namespace AvroIdl

/-! ## Documents -/

namespace Document

/-- A document as reading and editing leave it, however long its text is. -/
structure Genuine (d : Document) : Prop where
  table : d.table.Genuine
  shaped : ∀ t, d.tree? = some t → t.Shaped

theorem ofTree_genuine (serial : Nat) (uri : Bytes) (kind : DocumentKind) {tree : Tree}
    (lossless : tree.Lossless) (shaped : tree.Shaped) : (ofTree serial uri kind tree).Genuine := by
  refine ⟨.tree serial uri lossless, fun t eq => ?_⟩
  obtain rfl : tree = t := Option.some.inj ((Table.of_ofTree serial uri tree).tree.symm.trans eq)
  exact shaped

theorem read_genuine (serial : Nat) (uri : Bytes) (kind : DocumentKind) (text : Bytes)
    (opts : ParseOptions) : (read serial uri kind text opts).Genuine := by
  cases kind with
  | idl =>
    rw [read_idl]
    exact ofTree_genuine _ _ _ (Tree.parseIn_lossless ..) (Tree.parse_formed text opts).shaped
  | protocol | schema =>
    refine ⟨.json serial uri text opts.generation, fun t eq => ?_⟩
    exact absurd ((Table.of_ofJsonText serial uri text opts.generation).tree.symm.trans eq) (by simp)

end Document

namespace Project

variable {p : Project} {d : Document}

theorem Made.genuine (made : p.Made d) (docs : ∀ e ∈ p.now.docs, e.Indexed ∧ e.Genuine) :
    d.Genuine := by
  cases made with
  | read uri kind text generation eq =>
    rw [eq]
    exact Document.read_genuine ..
  | edited old loaded edit eq =>
    obtain ⟨indexed, genuine⟩ := docs old loaded
    rcases edited_cases eq with ⟨tree, r, ofTree, reparsed, rfl⟩ | ⟨text, -, -, rfl⟩
    · obtain ⟨-, lossless, -⟩ := indexed.ofTree tree ofTree
      exact Document.ofTree_genuine _ _ _ (Tree.reparse_lossless reparsed lossless).1
        (Tree.reparse_shaped reparsed lossless (genuine.shaped tree ofTree))
    · exact Document.read_genuine ..

/-- Whatever happens, documents are indexed from their texts. -/
theorem genuine_after (options : ProjectOptions) (occurrences : List Occurrence) :
    ∀ d ∈ (after options occurrences).now.docs, d.Indexed ∧ d.Genuine :=
  docs_after (fun _ _ made docs => made.genuine docs) options occurrences

end Project

/-! ## What a document sees -/

/-- What a document is checked with comes from what is visible from it. -/
structure CheckInput.Of (i : CheckInput) (s : Snapshot) (d : Document) : Prop where
  scope : i.scope = s.scopeOf d
  targets : i.targets = s.importTargets d

/-- A list that has no element twice has a second one besides a given one just if it is longer. -/
theorem two_le_length_iff {α : Type} {l : List α} {a : α} (once : l.Nodup) (mem : a ∈ l) :
    2 ≤ l.length ↔ ∃ b ∈ l, b ≠ a := by
  have some : l ≠ [] := List.ne_nil_of_mem mem
  rw [← (or_iff_right some : _ ↔ ∃ b ∈ l, b ≠ a), ← once.ne_singleton_iff a]
  constructor
  · rintro two rfl
    rw [List.length_singleton] at two
    omega
  · intro more
    by_contra few
    obtain ⟨b, rfl⟩ := List.length_eq_one_iff.mp
      (by have := List.length_pos_of_mem mem; omega : l.length = 1)
    exact more (List.mem_singleton.mp mem ▸ rfl)

namespace Snapshot

/-- A document is another one than `d`, and some way of imports leads there from `d`. -/
def Sees (s : Snapshot) (d e : Document) : Prop :=
  e ∈ s.docs ∧ e.uri ≠ d.uri ∧ Relation.TransGen s.Imports d.uri e.uri

/-- A type is declared by the target of an import statement of a document, or by what the target
imports, directly or through others. -/
def Contributes (s : Snapshot) (d : Document) (k : Import) (o : Symbol) : Prop :=
  ∃ v, s.links.status? (d.key k) = some (.loaded v) ∧
    ∃ e ∈ s.docs, Relation.ReflTransGen s.Imports v e.uri ∧ o ∈ e.table.types

variable {s : Snapshot} {d : Document} {o : Symbol}

/-- What a document sees is what its statements bring, apart from what it declares itself. -/
theorem exists_contributes (distinct : s.Distinct) (held : d ∈ s.docs) (foreign : o ∉ d.table.types) :
    (∃ k ∈ d.imports, s.Contributes d k o) ↔ ∃ e, s.Sees d e ∧ o ∈ e.table.types := by
  constructor
  · rintro ⟨k, statement, v, link, e, mem, path, declared⟩
    refine ⟨e, ⟨mem, fun same => ?_, .head' ⟨d, held, rfl, k, statement, link⟩ path⟩, declared⟩
    rw [List.inj_on_of_nodup_map distinct mem held same] at declared
    exact foreign declared
  · rintro ⟨e, ⟨mem, -, path⟩, declared⟩
    obtain ⟨v, ⟨d', held', same, k, statement, link⟩, rest⟩ := Relation.TransGen.head'_iff.mp path
    obtain rfl := List.inj_on_of_nodup_map distinct held' held same
    exact ⟨k, statement, v, link, e, mem, rest, declared⟩

end Snapshot

namespace CheckInput

variable {s : Snapshot} {d : Document} {i : CheckInput} {k : Import} {o : Symbol} {name : Bytes}

theorem Of.own (h : i.Of s d) : i.own = d.table := congrArg Scope.own h.scope

theorem Of.mem_foreign (h : i.Of s d) (distinct : s.Distinct) {t : Table} :
    t ∈ i.foreign ↔ ∃ e, s.Sees d e ∧ e.table = t := by
  rw [foreign, List.mem_filter, h.scope, Snapshot.mem_imports_scopeOf distinct, h.own, decide_eq_true_eq]
  constructor
  · rintro ⟨⟨e, mem, other, path, same⟩, -⟩
    exact ⟨e, ⟨mem, other, path⟩, same⟩
  · rintro ⟨e, ⟨mem, other, path⟩, rfl⟩
    exact ⟨⟨e, mem, other, path, rfl⟩, other⟩

section

variable (h : i.Of s d) (distinct : s.Distinct) (genuine : ∀ e ∈ s.docs, e.Genuine)
include h distinct genuine

/-- A name is found in another table just if another visible document declares it. -/
theorem Of.foreign_lookup (name : Bytes) : (∃ t ∈ i.foreign, t.lookup name ≠ []) ↔
    ∃ e, s.Sees d e ∧ ∃ o ∈ e.table.types, o.name = name := by
  have declares {e : Document} (sees : s.Sees d e) :
      e.table.lookup name ≠ [] ↔ ∃ o ∈ e.table.types, o.name = name := by
    rw [(genuine e sees.1).table.sound.byName, ne_eq, List.filter_eq_nil_iff]
    simp
  simp only [h.mem_foreign distinct]
  constructor
  · rintro ⟨t, ⟨e, sees, rfl⟩, found⟩
    exact ⟨e, sees, (declares sees).mp found⟩
  · rintro ⟨e, sees, found⟩
    exact ⟨e.table, ⟨e, sees, rfl⟩, (declares sees).mpr found⟩

/-- No declaration is counted twice. -/
theorem Of.nodup_namesakes (name : Bytes) : (i.namesakes name).Nodup := by
  have uri {o : Symbol} {t : Table} (mem : t ∈ i.foreign) (type : o ∈ t.types) : o.uri = t.uri := by
    obtain ⟨e, sees, rfl⟩ := (h.mem_foreign distinct).mp mem
    exact (genuine e sees.1).table.uri_eq type
  have uris : i.foreign.Pairwise fun t t' => t.uri ≠ t'.uri := by
    have all := Snapshot.nodup_imports_scopeOf distinct d
    rw [← h.scope] at all
    exact (List.pairwise_map.mp all).filter _
  have types : (i.foreign.flatMap Table.types).Nodup := by
    refine List.nodup_flatMap.mpr ⟨fun t mem => ?_, ?_⟩
    · obtain ⟨e, sees, rfl⟩ := (h.mem_foreign distinct).mp mem
      exact (genuine e sees.1).table.nodup_types
    · refine uris.imp_of_mem fun {t t'} mem mem' other o type type' => other ?_
      rw [← uri mem type, uri mem' type']
  exact (types.filter _).filter _

variable (held : d ∈ s.docs)
include held

theorem Of.mem_namesakes : o ∈ i.namesakes name ↔
    (∀ o' ∈ d.table.types, o'.name ≠ name) ∧ o.name = name ∧ ∃ k ∈ d.imports, s.Contributes d k o := by
  have unknown : i.own.lookup name = [] ↔ ∀ o' ∈ d.table.types, o'.name ≠ name := by
    rw [h.own, (genuine d held).table.sound.byName, List.filter_eq_nil_iff]
    simp
  simp only [namesakes, importedTypes, List.mem_filter, List.mem_flatMap, h.mem_foreign distinct,
    List.isEmpty_iff, decide_eq_true_eq]
  constructor
  · rintro ⟨⟨⟨t, ⟨e, sees, rfl⟩, type⟩, other⟩, rfl⟩
    have none := unknown.mp other
    exact ⟨none, rfl, (Snapshot.exists_contributes distinct held fun own => none o own rfl).mpr
      ⟨e, sees, type⟩⟩
  · rintro ⟨none, rfl, brought⟩
    obtain ⟨e, sees, type⟩ :=
      (Snapshot.exists_contributes distinct held fun own => none o own rfl).mp brought
    exact ⟨⟨⟨_, ⟨e, sees, rfl⟩, type⟩, unknown.mpr none⟩, rfl⟩

/-- A target holds the document of a visible type just if the statement brings the type. -/
theorem Of.target_contributes (mem : o ∈ i.namesakes name) (k : Import) :
    (∃ t ∈ (s.targetOf ((s.links.status? (d.key k)).getD .pending)).tables, t.uri = o.uri) ↔
      s.Contributes d k o := by
  have own {e : Document} (mem : e ∈ s.docs) (type : o ∈ e.table.types) : o.uri = e.uri :=
    (genuine e mem).table.uri_eq type
  simp only [(Snapshot.leading_targetOf distinct _).mem_tables]
  constructor
  · rintro ⟨t, ⟨v, link, e, loaded, path, rfl⟩, same⟩
    obtain ⟨-, -, k', -, v', -, e', loaded', -, type⟩ :=
      (h.mem_namesakes distinct genuine held).mp mem
    obtain rfl : e = e' :=
      List.inj_on_of_nodup_map distinct loaded loaded' (same.trans (own loaded' type))
    exact ⟨v, link, e, loaded, path, type⟩
  · rintro ⟨v, link, e, loaded, path, type⟩
    exact ⟨e.table, ⟨v, link, e, loaded, path, rfl⟩, (own loaded type).symm⟩

/-- The statements that bring a name, each with its own target. -/
theorem Of.map_fst_through (name : Bytes) : ((i.through name).map Prod.fst).Sublist d.imports ∧
    ∀ k ∈ d.imports, k ∈ (i.through name).map Prod.fst ↔
      ∃ o ∈ i.namesakes name, s.Contributes d k o := by
  have zipped : i.own.imports.zip i.targets = d.imports.map fun k =>
      (k, s.targetOf ((s.links.status? (d.key k)).getD .pending)) := by
    rw [List.map_prod_left_eq_zip, h.own, h.targets, Snapshot.importTargets, Document.keys,
      List.map_map]
    rfl
  rw [through, zipped, List.filter_map, List.map_map]
  refine ⟨?_, fun k statement => ?_⟩
  · exact (List.map_id _).symm ▸ List.filter_sublist
  · have brought : (∃ o ∈ i.namesakes name, s.Contributes d k o) ↔ ∃ o ∈ i.namesakes name,
        ∃ t ∈ (s.targetOf ((s.links.status? (d.key k)).getD .pending)).tables, t.uri = o.uri :=
      exists_congr fun o => and_congr_right fun mem =>
        (h.target_contributes distinct genuine held mem k).symm
    rw [brought]
    simp [statement]

/-- Two statements that bring a name and two imported types with the name are found just if two
different ones come with different statements. If the first statements that are found bring the same
type, then whichever statement brings the other type is a different one than one of them. -/
theorem Of.through_iff (once : d.imports.Nodup) (statement : k ∈ d.imports) :
    ((∃ target, (k, target) ∈ i.through name) ∧ 2 ≤ (i.namesakes name).length ∧
      2 ≤ (i.through name).length) ↔
    (∀ o ∈ d.table.types, o.name ≠ name) ∧ ∃ j ∈ d.imports, j ≠ k ∧
      ∃ a b, a ≠ b ∧ a.name = name ∧ b.name = name ∧
        s.Contributes d k a ∧ s.Contributes d j b := by
  obtain ⟨kept, brings⟩ := h.map_fst_through distinct genuine held name
  have first : (∃ target, (k, target) ∈ i.through name) ↔ k ∈ (i.through name).map Prod.fst := by
    simp
  have size : ((i.through name).map Prod.fst).length = (i.through name).length := List.length_map _
  have namesake (o : Symbol) : o ∈ i.namesakes name ↔ _ := h.mem_namesakes distinct genuine held
  have names := h.nodup_namesakes distinct genuine name
  rw [first, ← size]
  constructor
  · rintro ⟨through, two, more⟩
    obtain ⟨j, through', other⟩ := (two_le_length_iff (once.sublist kept) through).mp more
    obtain ⟨a, mem, brought⟩ := (brings k statement).mp through
    obtain ⟨b, mem', brought'⟩ := (brings j (kept.subset through')).mp through'
    obtain ⟨none, named, -⟩ := (namesake a).mp mem
    refine ⟨none, ?_⟩
    by_cases same : a = b
    · subst same
      obtain ⟨c, mem', ne⟩ := (two_le_length_iff names mem).mp two
      obtain ⟨-, named', l, statement', brought''⟩ := (namesake c).mp mem'
      by_cases here : l = k
      · exact ⟨j, kept.subset through', other, c, a, ne, named', named, here ▸ brought'', brought'⟩
      · exact ⟨l, statement', here, a, c, ne.symm, named, named', brought, brought''⟩
    · exact ⟨j, kept.subset through', other, a, b, same, named, ((namesake b).mp mem').2.1, brought,
        brought'⟩
  · rintro ⟨none, j, statement', other, a, b, ne, named, named', brought, brought'⟩
    have mem := (namesake a).mpr ⟨none, named, k, statement, brought⟩
    have mem' := (namesake b).mpr ⟨none, named', j, statement', brought'⟩
    have through := (brings k statement).mpr ⟨a, mem, brought⟩
    have through' := (brings j statement').mpr ⟨b, mem', brought'⟩
    exact ⟨through, (two_le_length_iff names mem).mpr ⟨b, mem', ne.symm⟩,
      (two_le_length_iff (once.sublist kept) through).mpr ⟨j, through', other⟩⟩

end

end CheckInput

namespace Project

/-- Whatever has happened to a project, what is visible from a loaded IDL document can be told, and
every check that is made with it, with the code turned on, reports names that are declared by several
documents exactly. A type of the document is reported just if another document that is visible
declares a type with its name. An import statement is reported with a name just if the document does
not declare the name, and of two different imported types with the name one is contributed through
this statement and the other through another one. -/
theorem duplicates_reported (options : ProjectOptions) (occurrences : List Occurrence) (uri : Bytes)
    (d : Document) (held : (after options occurrences).now.document? uri = some d)
    (idl : d.kind = .idl) :
    let s := (after options occurrences).now
    ∃ scope targets, s.scope uri = .ok (scope, targets) ∧
      ∀ (input : CheckInput) (opts : CheckOptions), input.scope = scope → input.targets = targets →
        3000 ∉ opts.disabled →
        (∀ o ∈ d.table.types,
          Reported (opts.check input) 3000 o.nameSpan (Problem.alsoImported o.name) ↔
            ∃ e, s.Sees d e ∧ ∃ o' ∈ e.table.types, o'.name = o.name) ∧
        ∀ i ∈ d.imports, ∀ name,
          Reported (opts.check input) 3000 i.pathSpan (Problem.betweenImports name) ↔
            (∀ o ∈ d.table.types, o.name ≠ name) ∧ ∃ j ∈ d.imports, j ≠ i ∧
              ∃ a b, a ≠ b ∧ a.name = name ∧ b.name = name ∧
                s.Contributes d i a ∧ s.Contributes d j b := by
  intro s
  have distinct : s.Distinct := distinct_after options occurrences
  have genuine : ∀ e ∈ s.docs, e.Genuine := fun e mem => (genuine_after options occurrences e mem).2
  obtain ⟨mem, rfl⟩ := Snapshot.mem_of_document? held
  obtain ⟨indexed, typed⟩ := typed_after options occurrences d mem
  obtain ⟨tree, ofTree⟩ := Option.isSome_iff_exists.mp (typed.mpr idl)
  obtain ⟨table, lossless, -⟩ := indexed.ofTree tree ofTree
  have shaped := (genuine d mem).shaped tree ofTree
  refine ⟨s.scopeOf d, s.importTargets d, ?_, fun input opts scope targets enabled => ?_⟩
  · rw [Snapshot.scope, Snapshot.document, held]
    rfl
  have built : input.Of s d := ⟨scope, targets⟩
  have own : input.own = .ofTree d.serial d.uri tree := built.own.trans table
  refine ⟨fun o type => ?_, fun i statement name => ?_⟩
  · rw [opts.reported_check enabled,
      CheckInput.reported_alsoImported own lossless shaped (built.own ▸ type)]
    exact built.foreign_lookup distinct genuine o.name
  · have once : d.imports.Nodup := by
      rw [Document.imports, table]
      exact (Table.nodup_nodes lossless).of_map
    rw [opts.reported_check enabled,
      CheckInput.reported_betweenImports own lossless shaped (built.own ▸ statement)]
    exact built.through_iff distinct genuine mem once statement

/-- A document imports two others. The first one declares the record of the document too, and a
record that the second one declares. -/
def clashing : List Occurrence :=
  [.openDocument "/a.avdl" "import idl \"b.avdl\"; import idl \"c.avdl\"; record S \x7b\x7d",
    .finishLoad ⟨"/a.avdl", "b.avdl", .idl⟩ (.ok ("/b.avdl", "record S \x7b\x7d record T \x7b\x7d")),
    .finishLoad ⟨"/a.avdl", "c.avdl", .idl⟩ (.ok ("/c.avdl", "record T \x7b\x7d"))]

theorem duplicates_reported_clashing :
    ∃ d, (after {} clashing).now.document? "/a.avdl" = some d ∧ d.kind = .idl ∧
      ∃ scope targets, (after {} clashing).now.scope "/a.avdl" = .ok (scope, targets) ∧
        3000 ∉ ({} : CheckOptions).disabled ∧
        (∃ o ∈ d.table.types, Reported (({} : CheckOptions).check { scope, targets }) 3000 o.nameSpan
          (Problem.alsoImported "S")) ∧
        ∃ i ∈ d.imports, Reported (({} : CheckOptions).check { scope, targets }) 3000 i.pathSpan
          (Problem.betweenImports "T") := by
  have importer : ∃ d ∈ (after {} clashing).now.docs, d.uri = "/a.avdl" ∧ d.kind = .idl ∧
      (∀ o ∈ d.table.types, o.name ≠ "T") ∧ (∃ o ∈ d.table.types, o.name = "S") ∧
      ∃ i ∈ d.imports, ∃ j ∈ d.imports, j ≠ i ∧
        (after {} clashing).now.links.status? (d.key i) = some (.loaded "/b.avdl") ∧
        (after {} clashing).now.links.status? (d.key j) = some (.loaded "/c.avdl") := by
    decide +kernel
  have imported : ∃ e ∈ (after {} clashing).now.docs, ∃ e' ∈ (after {} clashing).now.docs,
      e.uri = "/b.avdl" ∧ e'.uri = "/c.avdl" ∧ (∃ o ∈ e.table.types, o.name = "S") ∧
      ∃ a ∈ e.table.types, ∃ b ∈ e'.table.types, a ≠ b ∧ a.name = "T" ∧ b.name = "T" := by
    decide +kernel
  obtain ⟨d, mem, uri, idl, none, ⟨o, type, named⟩, i, statement, j, statement', other, link, link'⟩ :=
    importer
  obtain ⟨e, loaded, e', loaded', uriB, uriC, ⟨o', type', named'⟩, a, declared, b, declared', differ,
    nameA, nameB⟩ := imported
  have held := Snapshot.document?_eq_some (distinct_after {} clashing) mem
  rw [uri] at held
  rw [← uriB] at link
  rw [← uriC] at link'
  have ne : e.uri ≠ d.uri := by
    rw [uriB, uri]
    decide
  obtain ⟨scope, targets, built, reported⟩ := duplicates_reported {} clashing _ d held idl
  obtain ⟨own, between⟩ := reported { scope, targets } {} rfl rfl (by decide)
  refine ⟨d, held, idl, scope, targets, built, by decide, ⟨o, type, ?_⟩, i, statement, ?_⟩
  · rw [← named]
    exact (own o type).mpr ⟨e, ⟨loaded, ne, .single ⟨d, mem, rfl, i, statement, link⟩⟩, o', type',
      named'.trans named.symm⟩
  · exact (between i statement "T").mpr ⟨none, j, statement', other, a, b, differ, nameA, nameB,
      ⟨_, link, e, loaded, .refl, declared⟩, _, link', e', loaded', .refl, declared'⟩

end Project

end AvroIdl
