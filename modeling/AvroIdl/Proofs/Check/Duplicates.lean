import AvroIdl.Proofs.Check.Codes
import AvroIdl.Proofs.Symbol.Statement

/-!
# Names that imports declare too

Three checks report names that are declared twice, all with one code. Their problems do not get mixed
up: those of types stand where types are named, and those of import statements at the paths of the
statements, and the problems of types differ in their words. So a problem says which check made it,
and about what: `CheckInput.reported_alsoImported` and `CheckInput.reported_betweenImports`.
-/

namespace AvroIdl

/-- Whether a problem with this code is reported at a place, in these words. -/
def Reported (problems : List Diagnostic) (code : Nat) (span : Span) (message : Bytes) : Prop :=
  ∃ d ∈ problems, d.code = code ∧ d.span = span ∧ d.message = message

namespace Problem

/-- What is said of a type that an import declares too. -/
def alsoImported (name : Bytes) : Bytes :=
  Bytes.join ["Duplicate declaration of ", name, ", also declared by an import"]

/-- What is said of an import statement that brings a name which another one brings too. -/
def betweenImports (name : Bytes) : Bytes := Bytes.join [name, " is declared by more than one import"]

theorem alsoImported_injective {a b : Bytes} (h : alsoImported a = alsoImported b) : a = b := by
  simpa [alsoImported, Bytes.join] using h

theorem betweenImports_injective {a b : Bytes} (h : betweenImports a = betweenImports b) : a = b := by
  simpa [betweenImports, Bytes.join] using h

end Problem

/-- What is added behind a name belongs to its last part, if it has no dot. -/
theorem Name.simple_append_of_not_mem {tail : Bytes} (plain : dot ∉ tail) (name : Bytes) :
    simple (name ++ tail) = simple name ++ tail := by
  by_cases dotted : dot ∈ name
  · obtain ⟨p, q, rfl, last⟩ := Bytes.exists_last dotted
    rw [List.append_assoc, List.cons_append, simple_append last, simple_append (by simp [last, plain])]
  · rw [simple_of_not_mem dotted, simple_of_not_mem (by simp [dotted, plain])]

section

variable {problems others : List Diagnostic} {code : Nat} {span : Span} {message : Bytes}

theorem reported_append : Reported (problems ++ others) code span message ↔
    Reported problems code span message ∨ Reported others code span message := by
  simp only [Reported, List.mem_append, or_and_right, exists_or]

theorem Coded.not_reported {codes : List Nat} (h : Coded codes problems) (other : code ∉ codes)
    (span : Span) (message : Bytes) : ¬ Reported problems code span message := by
  rintro ⟨d, mem, rfl, -⟩
  exact other (h d mem)

/-- Sorting and the form of a report make no difference to what is said where. -/
theorem CheckOptions.reported_check {opts : CheckOptions} (enabled : code ∉ opts.disabled)
    (i : CheckInput) : Reported (opts.check i) code span message ↔
      Reported i.problems code span message := by
  have kept (d : Diagnostic) : (∃ e, opts.report? i.own.uri d = some e ∧ e.code = code ∧
      e.span = span ∧ e.message = message) ↔ d.code = code ∧ d.span = span ∧ d.message = message := by
    by_cases off : d.code ∈ opts.disabled
    · have other : d.code ≠ code := fun same => enabled (same ▸ off)
      simp [report?, off, other]
    · simp [report?, off]
  simp only [Reported, check, List.mem_mergeSort, List.mem_filterMap]
  constructor
  · rintro ⟨e, ⟨d, mem, made⟩, found⟩
    exact ⟨d, mem, (kept d).mp ⟨e, made, found⟩⟩
  · rintro ⟨d, mem, found⟩
    obtain ⟨e, made, found⟩ := (kept d).mpr found
    exact ⟨e, ⟨d, mem, made⟩, found⟩

end

namespace CheckInput

/-- The imported types with a name that the document does not declare. -/
def namesakes (i : CheckInput) (name : Bytes) : List Symbol :=
  i.importedTypes.filter fun s => s.name = name

/-- The import statements that bring a name, with what they lead to. -/
def through (i : CheckInput) (name : Bytes) : List (Import × ImportTarget) :=
  (i.own.imports.zip i.targets).filter fun p =>
    (i.namesakes name).any fun s => p.2.tables.any fun t => t.uri = s.uri

variable {i : CheckInput} {span : Span} {message name : Bytes} {o : Symbol}

/-! ## What each check says -/

theorem reported_problems (own : i.own.diagnostics = i.own.duplicates) :
    Reported i.problems 3000 span message ↔ Reported i.own.duplicates 3000 span message ∨
      Reported i.checkOwnDuplicates 3000 span message ∨
      Reported i.checkImportedDuplicates 3000 span message := by
  have imports : ¬ Reported i.checkImports 3000 span message :=
    i.coded_checkImports.not_reported (by decide) _ _
  have cycle : ¬ Reported i.checkCycle 3000 span message :=
    i.coded_checkCycle.not_reported (by decide) _ _
  have references : ¬ Reported i.checkReferences 3000 span message :=
    i.coded_checkReferences.not_reported (by decide) _ _
  have tree : ¬ Reported i.checkTree 3000 span message :=
    i.coded_checkTree.not_reported (by decide) _ _
  simp only [problems, reported_append, own, imports, cycle, references, tree, or_false, or_assoc]

theorem of_reported_duplicates {t : Table} (h : Reported t.duplicates 3000 span message) :
    ∃ o ∈ t.types, o.nameSpan = span ∧
      Bytes.join ["Duplicate declaration of ", o.name] = message := by
  obtain ⟨d, mem, -, rfl, rfl⟩ := h
  obtain ⟨o, type, made⟩ := List.mem_filterMap.mp mem
  dsimp only at made
  split_ifs at made
  obtain rfl := Option.some.inj made
  exact ⟨o, type, rfl, rfl⟩

theorem reported_checkOwnDuplicates : Reported i.checkOwnDuplicates 3000 span message ↔
    ∃ o ∈ i.own.types, o.nameSpan = span ∧ Problem.alsoImported o.name = message ∧
      ∃ t ∈ i.foreign, t.lookup o.name ≠ [] := by
  have found (o : Symbol) : ¬ (i.foreign.flatMap (·.lookup o.name)).isEmpty = true ↔
      ∃ t ∈ i.foreign, t.lookup o.name ≠ [] := by
    simp only [List.isEmpty_iff, List.flatMap_eq_nil_iff, not_forall, exists_prop, ne_eq]
  simp only [Reported, checkOwnDuplicates, List.mem_filterMap]
  constructor
  · rintro ⟨d, ⟨o, type, made⟩, -, rfl, rfl⟩
    split_ifs at made with none
    obtain rfl := Option.some.inj made
    exact ⟨o, type, rfl, rfl, (found o).mp none⟩
  · rintro ⟨o, type, rfl, rfl, declared⟩
    exact ⟨_, ⟨o, type, if_neg ((found o).mpr declared)⟩, rfl, rfl, rfl⟩

theorem checkImportedDuplicates_eq (i : CheckInput) : i.checkImportedDuplicates =
    (i.importedTypes.map (·.name)).eraseDups.flatMap fun name =>
      if (i.namesakes name).length < 2 || (i.through name).length < 2 then []
      else (i.through name).map fun p =>
        Problem.duplicateBetweenImports name p.1.pathSpan (i.namesakes name) := rfl

theorem reported_checkImportedDuplicates : Reported i.checkImportedDuplicates 3000 span message ↔
    ∃ name, ∃ p ∈ i.through name, p.1.pathSpan = span ∧ Problem.betweenImports name = message ∧
      2 ≤ (i.namesakes name).length ∧ 2 ≤ (i.through name).length := by
  rw [checkImportedDuplicates_eq]
  simp only [Reported, List.mem_flatMap]
  constructor
  · rintro ⟨d, ⟨name, -, mem⟩, -, rfl, rfl⟩
    split_ifs at mem with few
    · contradiction
    · obtain ⟨p, statement, rfl⟩ := List.mem_map.mp mem
      simp only [Bool.or_eq_true, decide_eq_true_eq, not_or, Nat.not_lt] at few
      exact ⟨name, p, statement, rfl, rfl, few⟩
  · rintro ⟨name, p, statement, rfl, rfl, names, statements⟩
    obtain ⟨o, mem⟩ := List.exists_mem_of_length_pos (Nat.lt_of_lt_of_le Nat.two_pos names)
    obtain ⟨imported, rfl⟩ : o ∈ i.importedTypes ∧ o.name = name := by
      simpa using List.mem_filter.mp mem
    refine ⟨Problem.duplicateBetweenImports o.name p.1.pathSpan (i.namesakes o.name),
      ⟨o.name, ?_, ?_⟩, rfl, rfl, rfl⟩
    · exact List.mem_eraseDups.mpr (List.mem_map_of_mem imported)
    · rw [if_neg (by simp only [Bool.or_eq_true, decide_eq_true_eq]; omega)]
      exact List.mem_map_of_mem statement

/-! ## Which check it was -/

theorem mem_imports_of_through {p : Import × ImportTarget} (h : p ∈ i.through name) :
    p.1 ∈ i.own.imports :=
  (List.of_mem_zip (List.mem_filter.mp h).1).1

section

variable {serial : Nat} {uri : Bytes} {tree : Tree}

/-- What is said of types of the document and what is said of types that are imported too differ in
their words: two types that are named at one place have names of one length. -/
theorem alsoImported_ne (lossless : tree.Lossless) (shaped : tree.Shaped) {o o' : Symbol}
    (declared : o ∈ (Table.ofTree serial uri tree).symbols)
    (declared' : o' ∈ (Table.ofTree serial uri tree).symbols) (place : o'.nameSpan = o.nameSpan) :
    Bytes.join ["Duplicate declaration of ", o'.name] ≠ Problem.alsoImported o.name := by
  intro same
  have longer : o'.name = o.name ++ ", also declared by an import" := by
    simpa [Problem.alsoImported, Bytes.join] using same
  obtain ⟨-, -, -, -, size⟩ := Table.nameSpan_at lossless shaped declared
  obtain ⟨-, -, -, -, size'⟩ := Table.nameSpan_at lossless shaped declared'
  rw [place, size, Symbol.simpleName, Symbol.simpleName, longer,
    Name.simple_append_of_not_mem (by decide), List.length_append] at size'
  have some : 0 < (", also declared by an import" : Bytes).length := by decide
  omega

/-- A type is said to be declared by an import too just if some foreign table declares its name. -/
theorem reported_alsoImported (own : i.own = .ofTree serial uri tree) (lossless : tree.Lossless)
    (shaped : tree.Shaped) (type : o ∈ i.own.types) :
    Reported i.problems 3000 o.nameSpan (Problem.alsoImported o.name) ↔
      ∃ t ∈ i.foreign, t.lookup o.name ≠ [] := by
  have symbol {o : Symbol} (type : o ∈ i.own.types) : o ∈ (Table.ofTree serial uri tree).symbols :=
    own ▸ (List.mem_filter.mp type).1
  rw [reported_problems (own ▸ rfl)]
  constructor
  · rintro (duplicate | imported | between)
    · obtain ⟨o', type', place, words⟩ := of_reported_duplicates duplicate
      exact absurd words (alsoImported_ne lossless shaped (symbol type) (symbol type') place)
    · obtain ⟨o', -, -, words, found⟩ := reported_checkOwnDuplicates.mp imported
      rwa [Problem.alsoImported_injective words] at found
    · obtain ⟨name, p, through, place, -⟩ := reported_checkImportedDuplicates.mp between
      have mem : p.1 ∈ (Table.ofTree serial uri tree).imports := own ▸ mem_imports_of_through through
      exact absurd place.symm (Table.nameSpan_ne_pathSpan lossless shaped (symbol type) mem)
  · intro found
    exact .inr (.inl (reported_checkOwnDuplicates.mpr ⟨o, type, rfl, rfl, found⟩))

/-- An import statement is said to bring a name that another one brings too just if two statements
do, it is one of them, and there are two imported types with the name. -/
theorem reported_betweenImports (own : i.own = .ofTree serial uri tree) (lossless : tree.Lossless)
    (shaped : tree.Shaped) {statement : Import} (mem : statement ∈ i.own.imports) :
    Reported i.problems 3000 statement.pathSpan (Problem.betweenImports name) ↔
      (∃ target, (statement, target) ∈ i.through name) ∧ 2 ≤ (i.namesakes name).length ∧
        2 ≤ (i.through name).length := by
  have elsewhere {o : Symbol} (type : o ∈ i.own.types) : o.nameSpan ≠ statement.pathSpan :=
    Table.nameSpan_ne_pathSpan lossless shaped (own ▸ (List.mem_filter.mp type).1) (own ▸ mem)
  rw [reported_problems (own ▸ rfl)]
  constructor
  · rintro (duplicate | imported | between)
    · obtain ⟨o, type, place, -⟩ := of_reported_duplicates duplicate
      exact absurd place (elsewhere type)
    · obtain ⟨o, type, place, -⟩ := reported_checkOwnDuplicates.mp imported
      exact absurd place (elsewhere type)
    · obtain ⟨name', p, through, place, words, two⟩ := reported_checkImportedDuplicates.mp between
      obtain rfl := Problem.betweenImports_injective words
      have other := mem_imports_of_through through
      obtain rfl : p.1 = statement := by
        rw [own] at other mem
        exact Table.eq_of_pathSpan lossless other mem place
      exact ⟨⟨p.2, through⟩, two⟩
  · rintro ⟨⟨target, through⟩, two⟩
    exact .inr (.inr (reported_checkImportedDuplicates.mpr
      ⟨name, _, through, rfl, rfl, two⟩))

end

end CheckInput

end AvroIdl
