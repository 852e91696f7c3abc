import AvroIdl.Project
import AvroIdl.Proofs.Symbol.Table
import AvroIdl.Proofs.Tree.History

/-!
# What is published

A project reads documents and drops them. Whatever it is asked to do, it publishes at most one
document, which is the next generation of a loaded one or the first of a URI that is not loaded:
`Project.Changes`. Each document is indexed from its own text: `Document.Indexed`.
-/

namespace AvroIdl

namespace Document

/-- The table of a document finds what it declares, and that of an IDL document is made from a tree
that holds the text. -/
structure Indexed (d : Document) : Prop where
  sound : d.table.Sound
  ofTree : ∀ t, d.tree? = some t →
    d.table = Table.ofTree d.serial d.uri t ∧ t.Lossless ∧ t.text = d.text

theorem ofTree_indexed (serial : Nat) (uri : Bytes) (kind : DocumentKind) {tree : Tree}
    (lossless : tree.Lossless) : (ofTree serial uri kind tree).Indexed := by
  have known := Table.of_ofTree serial uri tree
  refine ⟨known.sound, fun t eq => ?_⟩
  obtain rfl : tree = t := Option.some.inj (known.tree.symm.trans eq)
  refine ⟨?_, lossless, rfl⟩
  rw [Document.serial, Document.uri, ofTree, known.serial, known.uri]

theorem version_ofTree (serial : Nat) (uri : Bytes) (kind : DocumentKind) (tree : Tree) :
    (ofTree serial uri kind tree).uri = uri ∧
      (ofTree serial uri kind tree).generation = tree.generation :=
  ⟨(Table.of_ofTree serial uri tree).uri, (Table.of_ofTree serial uri tree).generation⟩

theorem read_idl (serial : Nat) (uri text : Bytes) (opts : ParseOptions) :
    read serial uri .idl text opts = ofTree serial uri .idl (Tree.parse text opts) := by
  rw [ofTree, Tree.parse, Tree.text_parseIn]
  rfl

theorem read_indexed (serial : Nat) (uri : Bytes) (kind : DocumentKind) (text : Bytes)
    (opts : ParseOptions) : (read serial uri kind text opts).Indexed := by
  have json := Table.of_ofJsonText serial uri text opts.generation
  cases kind with
  | idl =>
    rw [read_idl]
    exact ofTree_indexed _ _ _ (Tree.parseIn_lossless _ _ _)
  | protocol | schema => exact ⟨json.sound, fun t eq => nomatch json.tree.symm.trans eq⟩

theorem version_read (serial : Nat) (uri : Bytes) (kind : DocumentKind) (text : Bytes)
    (opts : ParseOptions) :
    (read serial uri kind text opts).uri = uri ∧
      (read serial uri kind text opts).generation = opts.generation := by
  have json := Table.of_ofJsonText serial uri text opts.generation
  cases kind with
  | idl =>
    rw [read_idl]
    obtain ⟨here, now⟩ := version_ofTree serial uri .idl (Tree.parse text opts)
    exact ⟨here, now.trans (Tree.generation_parseIn _ _ _)⟩
  | protocol | schema => exact ⟨json.uri, json.generation⟩

theorem serial_read (serial : Nat) (uri : Bytes) (kind : DocumentKind) (text : Bytes)
    (opts : ParseOptions) : (read serial uri kind text opts).serial = serial := by
  cases kind with
  | idl => exact (Table.of_ofTree serial uri _).serial
  | protocol | schema => exact (Table.of_ofJsonText serial uri text _).serial

theorem Indexed.generation_eq {d : Document} (h : d.Indexed) {t : Tree} (tree : d.tree? = some t) :
    t.generation = d.generation := by
  rw [generation, (h.ofTree t tree).1, (Table.of_ofTree _ _ t).generation]

end Document

namespace Snapshot

theorem mem_of_document? {s : Snapshot} {uri : Bytes} {d : Document} (h : s.document? uri = some d) :
    d ∈ s.docs ∧ d.uri = uri :=
  ⟨List.mem_of_find?_eq_some h, by simpa using List.find?_some h⟩

theorem ne_of_document? {s : Snapshot} {uri : Bytes} (h : s.document? uri = none) :
    ∀ d ∈ s.docs, d.uri ≠ uri := by
  simpa [document?] using h

/-- Whether a document is loaded. -/
def holds (s : Snapshot) (uri : Bytes) : Bool := (s.document? uri).isSome

theorem holds_of_mem {s : Snapshot} {d : Document} (h : d ∈ s.docs) : s.holds d.uri = true := by
  rw [holds, document?, List.find?_isSome]
  exact ⟨d, h, by simp⟩

end Snapshot

namespace Project

/-- Documents and remembered results may be dropped. -/
structure Keeps (p p' : Project) : Prop where
  docs : p'.now.docs ⊆ p.now.docs
  entries : p'.cache.entries ⊆ p.cache.entries
  options : p'.options = p.options
  serial : p'.serial = p.serial

variable {p p' p'' : Project}

theorem Keeps.refl (p : Project) : p.Keeps p :=
  ⟨List.Subset.refl _, List.Subset.refl _, rfl, rfl⟩

theorem Keeps.trans (h : p.Keeps p') (h' : p'.Keeps p'') : p.Keeps p'' :=
  ⟨List.Subset.trans h'.docs h.docs, List.Subset.trans h'.entries h.entries,
    h'.options.trans h.options, h'.serial.trans h.serial⟩

theorem keeps_of_eq (docs : p'.now.docs = p.now.docs) (cache : p'.cache = p.cache)
    (options : p'.options = p.options) (serial : p'.serial = p.serial) : p.Keeps p' := by
  refine ⟨?_, ?_, options, serial⟩
  · rw [docs]
    exact List.Subset.refl _
  · rw [cache]
    exact List.Subset.refl _

theorem keeps_interrupt (p : Project) (uri : Bytes) : p.Keeps (p.interrupt uri) :=
  keeps_of_eq rfl rfl rfl rfl

theorem keeps_advance (p : Project) : p.Keeps p.advance := keeps_of_eq rfl rfl rfl rfl

theorem keeps_foldl {α : Type} {f : Project → α → Project} (as : List α)
    (step : ∀ (p : Project), ∀ a ∈ as, p.Keeps (f p a)) (p : Project) : p.Keeps (as.foldl f p) := by
  induction as generalizing p with
  | nil => exact .refl p
  | cons a rest ih =>
    exact (step p a List.mem_cons_self).trans (ih (fun p b mem => step p b (.tail _ mem)) _)

theorem keeps_schedule (p : Project) (d : Document) : p.Keeps (p.schedule d) := by
  unfold schedule
  split_ifs
  · exact .refl p
  · refine keeps_foldl _ (fun p key _ => ?_) p
    split_ifs
    · exact .refl p
    · exact keeps_of_eq rfl rfl rfl rfl

theorem keeps_sweep (p : Project) : p.Keeps p.sweep := by
  refine ⟨List.filter_subset_self _, ?_, rfl, rfl⟩
  have dropped (docs : List Document) (c : Cache) :
      (docs.foldl (fun c d => c.invalidate d.uri) c).entries ⊆ c.entries := by
    induction docs generalizing c with
    | nil => exact List.Subset.refl _
    | cons d rest ih => exact List.Subset.trans (ih _) (List.filter_subset_self _)
  exact dropped _ _

/-- A document that comes after all of its URI among some others. -/
inductive Follows (docs : List Document) (d : Document) : Prop
  | first (fresh : ∀ e ∈ docs, e.uri ≠ d.uri) (generation : d.generation = 1)
  | next (old : Document) (loaded : old ∈ docs) (uri : old.uri = d.uri)
    (generation : d.generation = old.generation + 1)

/-- A document that a project makes: it is read, or it is a loaded one after an edit. -/
inductive Made (p : Project) (d : Document) : Prop
  | read (uri : Bytes) (kind : DocumentKind) (text : Bytes) (generation : UInt64)
    (eq : d = p.read uri kind text generation)
  | edited (old : Document) (loaded : old ∈ p.now.docs) (edit : Edit) (eq : p.edited old edit = .ok d)

/-- What an operation can do: it keeps to the loaded documents, or publishes one. -/
inductive Changes (p p' : Project) : Prop
  | keeps (h : p.Keeps p')
  | publishes (d : Document) (made : p.Made d) (indexed : d.Indexed) (follows : Follows p.now.docs d)
    (docs : ∀ e ∈ p'.now.docs, e = d ∨ e ∈ p.now.docs ∧ e.uri ≠ d.uri)
    (entries : p'.cache.entries ⊆ p.cache.entries) (options : p'.options = p.options)
    (serial : p'.serial = p.serial + 1)

theorem Changes.trans_keeps (h : p.Changes p') (h' : p'.Keeps p'') : p.Changes p'' := by
  cases h with
  | keeps h => exact .keeps (h.trans h')
  | publishes d made indexed follows docs entries options serial =>
    exact .publishes d made indexed follows (fun e mem => docs e (h'.docs mem))
      (List.Subset.trans h'.entries entries) (h'.options.trans options) (h'.serial.trans serial)

/-- Publishing a document that follows those that are loaded, in a project that differs from the
first in other respects. -/
theorem changes_publish (same : p'.now.docs = p.now.docs) (cache : p'.cache = p.cache)
    (options : p'.options = p.options) (serial : p'.serial = p.serial) {d : Document}
    (made : p.Made d) (indexed : d.Indexed) (follows : Follows p.now.docs d) :
    p.Changes (p'.publish d) := by
  refine Changes.trans_keeps (.publishes d made indexed follows ?_ ?_ ?_ ?_)
    (((keeps_schedule _ d).trans (keeps_sweep _)).trans (keeps_advance _))
  · intro e mem
    simp only [List.mem_append, List.mem_filter, List.mem_singleton, decide_eq_true_eq, same] at mem
    exact mem.symm
  · rw [← cache]
    exact List.filter_subset_self _
  · exact options
  · exact congrArg (· + 1) serial

theorem changes_openDocument (p : Project) (uri text : Bytes) :
    p.Changes (p.openDocument uri text).1 := by
  unfold openDocument
  dsimp only
  refine changes_publish ?_ ?_ ?_ ?_ ?_ ?_ ?_
  · rfl
  · rfl
  · rfl
  · rfl
  · split <;> exact .read _ _ _ _ rfl
  · split <;> exact Document.read_indexed _ _ _ _ _
  · have now : (p.interrupt uri).now = p.now := rfl
    rw [now]
    split
    next old loaded =>
      obtain ⟨mem, here⟩ := Snapshot.mem_of_document? loaded
      obtain ⟨uri_eq, generation_eq⟩ := Document.version_read p.serial uri old.kind text
        (p.parseOptions (old.generation + 1))
      exact .next old mem (here.trans uri_eq.symm) generation_eq
    next unknown =>
      refine .first (fun e mem => ?_) (Document.version_read _ _ _ _ _).2
      rw [read, (Document.version_read _ _ _ _ _).1]
      exact Snapshot.ne_of_document? unknown e mem

/-- Counting starts at one, so that the generation after zero is one, too. -/
theorem nextGeneration_one (t : Tree) : t.nextGeneration 1 = t.generation + 1 := by
  unfold Tree.nextGeneration
  split_ifs with le
  · rfl
  · have zero : t.generation = 0 := by
      rw [UInt64.le_iff_toNat_le, UInt64.toNat_one] at le
      exact UInt64.toNat_inj.mp (by rw [UInt64.toNat_zero]; omega)
    rw [zero]
    rfl

/-- What an edit can give: a tree is read again around the edit, and any other text as a whole. -/
theorem edited_cases {old d : Document} {edit : Edit} (h : p.edited old edit = .ok d) :
    (∃ tree r, old.tree? = some tree ∧
      tree.reparse edit { maxSize := p.options.maxSize } = .ok r ∧
      d = .ofTree p.serial old.uri old.kind r.tree) ∨
    ∃ text, old.tree? = none ∧ edit.apply old.text = .ok text ∧
      d = p.read old.uri old.kind text (old.generation + 1) := by
  unfold edited at h
  split at h
  next tree ofTree =>
    cases reparsed : tree.reparse edit { maxSize := p.options.maxSize } with
    | error e => simp [reparsed, bind, Except.bind] at h
    | ok r =>
      simp only [reparsed, bind, Except.bind, pure, Except.pure, Except.ok.injEq] at h
      exact .inl ⟨tree, r, ofTree, reparsed, h.symm⟩
  next noTree =>
    cases applied : edit.apply old.text with
    | error e => simp [applied, bind, Except.bind] at h
    | ok text =>
      simp only [applied, bind, Except.bind, pure, Except.pure, Except.ok.injEq] at h
      exact .inr ⟨text, noTree, rfl, h.symm⟩

/-- An edit gives the next generation of a document. -/
theorem edited_follows {old d : Document} {edit : Edit} (h : p.edited old edit = .ok d)
    (indexed : old.Indexed) :
    d.Indexed ∧ d.uri = old.uri ∧ d.generation = old.generation + 1 := by
  rcases edited_cases h with ⟨tree, r, ofTree, reparsed, rfl⟩ | ⟨text, -, -, rfl⟩
  · obtain ⟨-, lossless, -⟩ := indexed.ofTree tree ofTree
    obtain ⟨here, now⟩ := Document.version_ofTree p.serial old.uri old.kind r.tree
    refine ⟨Document.ofTree_indexed _ _ _ (Tree.reparse_lossless reparsed lossless).1, here, ?_⟩
    rw [now, (Tree.reparse_stamped reparsed lossless).1, nextGeneration_one,
      indexed.generation_eq ofTree]
  · exact ⟨Document.read_indexed _ _ _ _ _, Document.version_read _ _ _ _ _⟩

theorem changes_update (p : Project) (uri : Bytes) (edit : Edit)
    (indexed : ∀ d ∈ p.now.docs, d.Indexed) : p.Changes (p.update uri edit).1 := by
  unfold update
  split
  next => exact .keeps (.refl p)
  next old loaded =>
    obtain ⟨mem, here⟩ := Snapshot.mem_of_document? loaded
    dsimp only
    split
    next => exact .keeps (keeps_interrupt p uri)
    next d edited =>
      obtain ⟨good, uri_eq, generation_eq⟩ := edited_follows edited (indexed old mem)
      refine changes_publish ?_ ?_ ?_ ?_ (.edited old mem edit edited) good
        (.next old mem uri_eq.symm generation_eq)
      · rfl
      · rfl
      · rfl
      · rfl

theorem keeps_closeDocument (p : Project) (uri : Bytes) : p.Keeps (p.closeDocument uri) := by
  refine Keeps.trans ?_ ((keeps_sweep _).trans (keeps_advance _))
  exact keeps_of_eq rfl rfl rfl rfl

theorem keeps_refresh (p : Project) : p.Keeps p.refresh := by
  refine Keeps.trans ?_ ((keeps_foldl _ (fun p d _ => keeps_schedule p d) _).trans (keeps_advance _))
  exact keeps_of_eq rfl rfl rfl rfl

theorem changes_finishLoad (p : Project) (key : LinkKey)
    (outcome : Except LoadError (Bytes × Bytes)) : p.Changes (p.finishLoad key outcome) := by
  unfold finishLoad
  dsimp only
  split_ifs
  · exact .keeps (keeps_of_eq rfl rfl rfl rfl)
  · split
    next e => exact .keeps (keeps_of_eq rfl rfl rfl rfl)
    next uri text =>
      refine Changes.trans_keeps ?_ (keeps_advance _)
      unfold loaded?
      split_ifs with loaded
      · exact .keeps (keeps_of_eq rfl rfl rfl rfl)
      · refine changes_publish ?_ ?_ ?_ ?_ (.read _ _ _ _ rfl) (Document.read_indexed _ _ _ _ _)
          (.first (fun e mem => ?_) (Document.version_read _ _ _ _ _).2)
        · rfl
        · rfl
        · rfl
        · rfl
        · rw [read, (Document.version_read _ _ _ _ _).1]
          exact Snapshot.ne_of_document? (Option.not_isSome_iff_eq_none.mp loaded) e mem

end Project

end AvroIdl
