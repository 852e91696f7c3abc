import AvroIdl.Proofs.Check.Codes
import AvroIdl.Proofs.Check.Shortest
import AvroIdl.Proofs.Symbol.Table

/-!
# Who reports an import cycle

Only the check of cycles reports one, `CheckInput.countP_problems`. Each member of a cycle decides
on its own whether it is the one to report it. They agree, for they find the same members.
-/

namespace AvroIdl

/-- A table that indexing gives. -/
inductive Table.Indexed : Table → Prop where
  | tree (serial : Nat) (uri : Bytes) (tree : Tree) : Indexed (.ofTree serial uri tree)
  | json (serial : Nat) (uri text : Bytes) (generation : UInt64) :
    Indexed (.ofJsonText serial uri text generation)

theorem Table.Indexed.coded {t : Table} (h : t.Indexed) : Coded [3000, 3002] t.diagnostics := by
  have duplicates (t : Table) : Coded [3000, 3002] t.duplicates := t.coded_duplicates.mono (by simp)
  cases h with
  | tree => exact duplicates _
  | json serial uri text =>
    unfold ofJsonText
    cases Json.read? text with
    | none => simp [Coded, unreadable]
    | some root => exact duplicates _

namespace CheckInput

variable {i : CheckInput}

/-- Of all checks only that of cycles reports one. -/
theorem countP_problems (indexed : i.own.Indexed) :
    i.problems.countP (·.code = 3003) = i.checkCycle.length := by
  have cycle : i.checkCycle.countP (·.code = 3003) = i.checkCycle.length := by
    rw [List.countP_eq_length]
    intro d mem
    simpa using i.coded_checkCycle d mem
  simp only [problems, List.countP_append, indexed.coded.countP_eq_zero 3003 (by decide),
    i.coded_checkImports.countP_eq_zero 3003 (by decide),
    i.coded_checkOwnDuplicates.countP_eq_zero 3003 (by decide),
    i.coded_checkImportedDuplicates.countP_eq_zero 3003 (by decide),
    i.coded_checkReferences.countP_eq_zero 3003 (by decide),
    i.coded_checkTree.countP_eq_zero 3003 (by decide), cycle]
  omega

theorem checkCycle_of_not_reaches (distinct : i.graph.Distinct)
    (away : ¬ i.graph.Reaches i.own.uri i.own.uri) : i.checkCycle = [] := by
  have away : i.own.uri ∉ i.graph.descendants i.own.uri := by
    rwa [ImportGraph.mem_descendants distinct]
  simp [checkCycle, away]

theorem checkCycle_of_other
    (other : reporterOf (i.graph.members i.own.uri) i.reporters ≠ i.own.uri) :
    i.checkCycle = [] := by
  simp [checkCycle, other]

theorem length_checkCycle (distinct : i.graph.Distinct)
    (cycle : i.graph.Reaches i.own.uri i.own.uri)
    (reporter : reporterOf (i.graph.members i.own.uri) i.reporters = i.own.uri) :
    i.checkCycle.length = 1 := by
  have member : i.own.uri ∈ i.graph.descendants i.own.uri :=
    (ImportGraph.mem_descendants distinct).mpr cycle
  obtain ⟨way, found⟩ :=
    Option.isSome_iff_exists.mp (ImportGraph.shortestCycle?_isSome distinct cycle)
  simp [checkCycle, member, reporter, found]

/-- The input by which a document of a graph is checked. -/
structure Over (i : CheckInput) (g : ImportGraph) (reporters : List Bytes) (uri : Bytes) :
    Prop where
  uri : i.own.uri = uri
  indexed : i.own.Indexed
  graph : i.graph = g
  reporters : i.reporters = reporters

end CheckInput

namespace CheckOptions

/-- Sorting and the form of a report make no difference to how many cycles are reported. -/
theorem countP_check {opts : CheckOptions} (enabled : 3003 ∉ opts.disabled) {i : CheckInput}
    (indexed : i.own.Indexed) :
    (opts.check i).countP (·.code = 3003) = i.checkCycle.length := by
  rw [check, (List.mergeSort_perm _ _).countP_eq, List.countP_filterMap,
    ← CheckInput.countP_problems indexed]
  congr 1
  funext d
  by_cases cycle : d.code = 3003
  · simp [report?, cycle, enabled]
  · by_cases off : d.code ∈ opts.disabled <;> simp [report?, cycle, off]

variable {g : ImportGraph} {reporters : List Bytes} {input : Bytes → CheckInput}

/-- Each import cycle is reported by one of its members, and once: by the least of those that are
reporters, or by the least of all. Documents on no cycle report none. -/
theorem cycle_reported_once (opts : CheckOptions) (enabled : 3003 ∉ opts.disabled)
    (distinct : g.Distinct) (named : [] ∉ g.map Prod.fst)
    (fits : ∀ uri, (input uri).Over g reporters uri) (uri : Bytes) :
    (¬ g.Reaches uri uri → (opts.check (input uri)).countP (·.code = 3003) = 0) ∧
      (g.Reaches uri uri →
        ∃ r, IsReporter (g.SameCycle uri) reporters r ∧
          (opts.check (input r)).countP (·.code = 3003) = 1 ∧
            ∀ v, g.SameCycle uri v → v ≠ r →
              (opts.check (input v)).countP (·.code = 3003) = 0) := by
  have count (v : Bytes) :
      (opts.check (input v)).countP (·.code = 3003) = (input v).checkCycle.length :=
    countP_check enabled (fits v).indexed
  have distinct' (v : Bytes) : (input v).graph.Distinct := (fits v).graph ▸ distinct
  constructor
  · intro away
    rw [count, CheckInput.checkCycle_of_not_reaches (distinct' uri)]
    · rfl
    · rwa [(fits uri).graph, (fits uri).uri]
  · intro cycle
    have reporter := g.isReporter_members distinct named reporters cycle
    have agree {v : Bytes} (same : g.SameCycle uri v) :
        reporterOf (g.members v) reporters = reporterOf (g.members uri) reporters :=
      (g.isReporter_members distinct named reporters (same.2.trans same.1)).unique
        (same.eq ▸ reporter)
    refine ⟨_, reporter, ?_, fun v same other => ?_⟩
    · have same := reporter.member
      rw [count, CheckInput.length_checkCycle (distinct' _)]
      · rw [(fits _).graph, (fits _).uri]
        exact same.2.trans same.1
      · rw [(fits _).graph, (fits _).uri, (fits _).reporters]
        exact agree same
    · rw [count, CheckInput.checkCycle_of_other]
      · rfl
      · rw [(fits v).graph, (fits v).uri, (fits v).reporters, agree same]
        exact other.symm

/-- Two documents that import each other, one of which imports itself, and a third beside them. -/
def mutualImports : ImportGraph :=
  [(.ofString "a", [⟨.ofString "b", ⟨7, 3⟩⟩]),
    (.ofString "b", [⟨.ofString "b", ⟨7, 3⟩⟩, ⟨.ofString "a", ⟨19, 3⟩⟩]),
    (.ofString "c", [⟨.ofString "a", ⟨7, 3⟩⟩])]

/-- What the documents of `mutualImports` are checked against, as JSON without types. -/
def mutualInput (uri : Bytes) : CheckInput :=
  { scope := { own := .ofJsonText 0 uri "[]" 0 }
    graph := mutualImports
    reporters := [.ofString "c", .ofString "b"] }

theorem mutual_cycle_reported_once :
    3003 ∉ ({} : CheckOptions).disabled ∧ mutualImports.Distinct ∧
      [] ∉ mutualImports.map Prod.fst ∧
      (∀ uri, (mutualInput uri).Over mutualImports [.ofString "c", .ofString "b"] uri) ∧
      mutualImports.Reaches (.ofString "a") (.ofString "a") ∧
      ∃ r, IsReporter (mutualImports.SameCycle (.ofString "a")) [.ofString "c", .ofString "b"] r ∧
        (({} : CheckOptions).check (mutualInput r)).countP (·.code = 3003) = 1 ∧
          ∀ v, mutualImports.SameCycle (.ofString "a") v → v ≠ r →
            (({} : CheckOptions).check (mutualInput v)).countP (·.code = 3003) = 0 := by
  have enabled : 3003 ∉ ({} : CheckOptions).disabled := by decide
  have distinct : mutualImports.Distinct := by decide
  have named : [] ∉ mutualImports.map Prod.fst := by decide
  have fits (uri : Bytes) :
      (mutualInput uri).Over mutualImports [.ofString "c", .ofString "b"] uri :=
    ⟨(Table.of_ofJsonText 0 uri "[]" 0).uri, .json 0 uri "[]" 0, rfl, rfl⟩
  have there : mutualImports.Imports (.ofString "a") (.ofString "b") := by
    unfold ImportGraph.Imports; decide
  have back : mutualImports.Imports (.ofString "b") (.ofString "a") := by
    unfold ImportGraph.Imports; decide
  have cycle : mutualImports.Reaches (.ofString "a") (.ofString "a") := .tail (.single there) back
  exact ⟨enabled, distinct, named, fits, cycle,
    (cycle_reported_once {} enabled distinct named fits (.ofString "a")).2 cycle⟩

end CheckOptions

end AvroIdl
