import AvroIdl.Proofs.Project.Index

/-!
# What happens to a project

An editor asks for something, a load ends with any outcome, an analysis begins or ends, an old
snapshot is asked, the project is closed: each is an `Occurrence`, and they come in any order. At
any time each document is loaded once, `Project.distinct_after`, and the IDL documents are those that
have a tree, `Project.typed_after`.
-/

namespace AvroIdl

/-- What can happen to a project. A snapshot that is asked leaves what it found in the cache. -/
inductive Occurrence where
  | openDocument (uri text : Bytes)
  | update (uri : Bytes) (edit : Edit)
  | closeDocument (uri : Bytes)
  | refresh
  | finishLoad (key : LinkKey) (outcome : Except LoadError (Bytes × Bytes))
  | beginAnalysis (uri : Bytes)
  | finishAnalysis (analysis : Analysis) (canceled : Bool)
  | resolve (snapshot : Snapshot) (uri : Bytes)
  | references (snapshot : Snapshot)
  | diagnose (snapshot : Snapshot) (interrupt : Option DocumentError) (uri : Bytes)
  | close

/-- Just the IDL documents have a tree. -/
def Document.Typed (d : Document) : Prop := d.tree?.isSome = true ↔ d.kind = .idl

theorem Document.read_typed (serial : Nat) (uri : Bytes) (kind : DocumentKind) (text : Bytes)
    (opts : ParseOptions) : (read serial uri kind text opts).Typed := by
  cases kind with
  | idl =>
    have tree := (Table.of_ofTree serial uri (Tree.parse text opts)).tree
    exact iff_of_true (by rw [tree?, read, tree]; rfl) rfl
  | protocol | schema =>
    have tree := (Table.of_ofJsonText serial uri text opts.generation).tree
    refine iff_of_false ?_ (by simp [read])
    simp only [tree?, read, tree]
    simp

namespace Project

/-- The project after something has happened. -/
def undergo (p : Project) : Occurrence → Project
  | .openDocument uri text => (p.openDocument uri text).1
  | .update uri edit => (p.update uri edit).1
  | .closeDocument uri => p.closeDocument uri
  | .refresh => p.refresh
  | .finishLoad key outcome => p.finishLoad key outcome
  | .beginAnalysis uri => (p.beginAnalysis uri).1
  | .finishAnalysis analysis canceled => (p.finishAnalysis analysis canceled).1
  | .resolve snapshot uri => { p with cache := (snapshot.resolve p.cache uri).1 }
  | .references snapshot => { p with cache := (snapshot.references p.cache).1 }
  | .diagnose snapshot interrupt uri =>
    { p with cache := (snapshot.diagnostics p.options.check interrupt p.cache uri).1 }
  | .close => p.close

/-- A new project after all that has happened to it. -/
def after (options : ProjectOptions) (occurrences : List Occurrence) : Project :=
  occurrences.foldl undergo { options }

variable {p p' : Project} {d : Document}

/-- What holds of a new project and stays whatever happens holds at any time. -/
theorem after_induction {P : Project → Prop} {options : ProjectOptions} (new : P { options })
    (step : ∀ p o, P p → P (p.undergo o)) (occurrences : List Occurrence) :
    P (after options occurrences) := by
  have run (p : Project) (h : P p) : P (occurrences.foldl undergo p) := by
    induction occurrences generalizing p with
    | nil => exact h
    | cons o rest ih => exact ih _ (step p o h)
  exact run _ new

/-! ## Each document once -/

theorem docs_schedule (p : Project) (d : Document) : (p.schedule d).now.docs = p.now.docs := by
  have asked (keys : List LinkKey) (p : Project) : (keys.foldl ask p).now.docs = p.now.docs := by
    induction keys generalizing p with
    | nil => rfl
    | cons key rest ih =>
      rw [List.foldl_cons, ih, ask]
      split_ifs <;> rfl
  unfold schedule
  split_ifs
  · rfl
  · exact asked d.keys p

theorem docs_foldl_schedule (docs : List Document) (p : Project) :
    (docs.foldl schedule p).now.docs = p.now.docs := by
  induction docs generalizing p with
  | nil => rfl
  | cons d rest ih => rw [List.foldl_cons, ih, docs_schedule]

theorem distinct_sweep (docs : p.now.Distinct) : p.sweep.now.Distinct :=
  docs.sublist (List.filter_sublist.map _)

theorem distinct_publish (docs : p.now.Distinct) : (p.publish d).now.Distinct := by
  rw [publish_eq]
  refine distinct_sweep (p := (p.put d).schedule d) ?_
  rw [Snapshot.Distinct, docs_schedule]
  exact distinct_put docs

theorem distinct_finishLoad (docs : p.now.Distinct) (key : LinkKey)
    (outcome : Except LoadError (Bytes × Bytes)) : (p.finishLoad key outcome).now.Distinct := by
  unfold finishLoad
  dsimp only
  split_ifs
  · exact docs
  · split
    next => exact docs
    next uri text =>
      unfold loaded?
      split_ifs
      · exact docs
      · exact distinct_publish (p := { p with
          loads := p.loads.erase key
          now := { p.now with links := p.now.links.set key (.loaded uri) } }) docs

theorem distinct_undergo (docs : p.now.Distinct) (o : Occurrence) : (p.undergo o).now.Distinct := by
  cases o with
  | openDocument uri text => exact distinct_publish (p := p.mark uri) docs
  | update uri edit =>
    change (p.update uri edit).1.now.Distinct
    unfold Project.update
    split
    next => exact docs
    next =>
      dsimp only
      split
      next => exact docs
      next => exact distinct_publish (p := p.interrupt uri) docs
  | closeDocument uri => exact distinct_sweep (p := { p.interrupt uri with
      now := { p.now with opened := p.now.opened.filter (· ≠ uri) } }) docs
  | refresh =>
    change (p.now.docs.foldl schedule p.retry).now.Distinct
    rw [Snapshot.Distinct, docs_foldl_schedule]
    exact docs
  | finishLoad key outcome => exact distinct_finishLoad docs key outcome
  | beginAnalysis | finishAnalysis | resolve | references | diagnose | close => exact docs

/-- Whatever happens, each document is loaded once. -/
theorem distinct_after (options : ProjectOptions) (occurrences : List Occurrence) :
    (after options occurrences).now.Distinct :=
  after_induction (P := fun p => p.now.Distinct) .nil (fun _ o docs => distinct_undergo docs o)
    occurrences

/-! ## Documents with a tree -/

/-- What happens leaves the documents alone, keeps some of them or publishes one. -/
theorem changes_undergo (p : Project) (indexed : ∀ d ∈ p.now.docs, d.Indexed) (o : Occurrence) :
    (p.undergo o).now = p.now ∨ p.Changes (p.undergo o) := by
  cases o with
  | openDocument uri text => exact .inr (p.changes_openDocument uri text)
  | update uri edit => exact .inr (p.changes_update uri edit indexed)
  | closeDocument uri => exact .inr (.keeps (p.keeps_closeDocument uri))
  | refresh => exact .inr (.keeps p.keeps_refresh)
  | finishLoad key outcome => exact .inr (p.changes_finishLoad key outcome)
  | beginAnalysis | finishAnalysis | resolve | references | diagnose | close => exact .inl rfl

/-- What holds of each document that a project makes, as long as it holds of those that it has,
holds of all documents. -/
theorem docs_after {Q : Document → Prop}
    (made : ∀ p d, Made p d → (∀ e ∈ p.now.docs, e.Indexed ∧ Q e) → Q d) (options : ProjectOptions)
    (occurrences : List Occurrence) :
    ∀ d ∈ (after options occurrences).now.docs, d.Indexed ∧ Q d := by
  refine after_induction (P := fun p => ∀ d ∈ p.now.docs, d.Indexed ∧ Q d)
    (fun d mem => absurd mem List.not_mem_nil) (fun p o h => ?_) occurrences
  rcases p.changes_undergo (fun d mem => (h d mem).1) o with same | changes
  · rw [same]
    exact h
  · cases changes with
    | keeps keeps => exact fun d mem => h d (keeps.docs mem)
    | publishes d new indexed _ docs =>
      intro e mem
      rcases docs e mem with rfl | ⟨mem, -⟩
      · exact ⟨indexed, made p e new h⟩
      · exact h e mem

theorem Made.typed (made : p.Made d) (docs : ∀ e ∈ p.now.docs, e.Typed) : d.Typed := by
  cases made with
  | read uri kind text generation eq =>
    rw [eq]
    exact Document.read_typed ..
  | edited old loaded edit eq =>
    rcases edited_cases eq with ⟨tree, r, ofTree, -, rfl⟩ | ⟨text, -, -, rfl⟩
    · have kind := (docs old loaded).mp (by rw [ofTree]; rfl)
      have tree := (Table.of_ofTree p.serial old.uri r.tree).tree
      exact iff_of_true (by rw [Document.tree?, Document.ofTree, tree]; rfl) kind
    · exact Document.read_typed ..

/-- Whatever happens, documents are indexed, and just the IDL documents have a tree. -/
theorem typed_after (options : ProjectOptions) (occurrences : List Occurrence) :
    ∀ d ∈ (after options occurrences).now.docs, d.Indexed ∧ d.Typed :=
  docs_after (fun _ _ made docs => made.typed fun e mem => (docs e mem).2) options occurrences

end Project

end AvroIdl
