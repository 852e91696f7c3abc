import AvroIdl.Check
import AvroIdl.Document
import Mathlib.Data.List.Basic

/-!
# The codes of problems

Each check has codes of its own: `Coded` says which. A code tells which of the checks reported a
problem, apart from code 3002, which is that of an unreadable import and of an unreadable document.
-/

namespace AvroIdl

/-- Some problems that all have one of these codes. -/
def Coded (codes : List Nat) (problems : List Diagnostic) : Prop := ∀ d ∈ problems, d.code ∈ codes

namespace Coded

variable {codes : List Nat}

theorem nil : Coded codes [] := by simp [Coded]

theorem append {a b : List Diagnostic} (ha : Coded codes a) (hb : Coded codes b) :
    Coded codes (a ++ b) := by
  intro d mem
  rcases List.mem_append.mp mem with mem | mem
  · exact ha d mem
  · exact hb d mem

theorem map {α : Type} {f : α → Diagnostic} (h : ∀ a, (f a).code ∈ codes) (as : List α) :
    Coded codes (as.map f) := by
  intro d mem
  obtain ⟨a, -, rfl⟩ := List.mem_map.mp mem
  exact h a

theorem filterMap {α : Type} {f : α → Option Diagnostic}
    (h : ∀ a d, f a = some d → d.code ∈ codes) (as : List α) : Coded codes (as.filterMap f) := by
  intro d mem
  obtain ⟨a, -, found⟩ := List.mem_filterMap.mp mem
  exact h a d found

theorem flatMap {α : Type} {f : α → List Diagnostic} (h : ∀ a, Coded codes (f a)) (as : List α) :
    Coded codes (as.flatMap f) := by
  intro d mem
  obtain ⟨a, -, mem⟩ := List.mem_flatMap.mp mem
  exact h a d mem

theorem mono {codes' : List Nat} {problems : List Diagnostic} (h : Coded codes problems)
    (more : codes ⊆ codes') : Coded codes' problems :=
  fun d mem => more (h d mem)

theorem countP_eq_zero {problems : List Diagnostic} (h : Coded codes problems) (code : Nat)
    (other : code ∉ codes) : problems.countP (·.code = code) = 0 := by
  rw [List.countP_eq_zero]
  intro d mem same
  exact other (of_decide_eq_true same ▸ h d mem)

end Coded

theorem Table.coded_duplicates (t : Table) : Coded [3000] t.duplicates := by
  refine .filterMap (fun s d found => ?_) _
  dsimp only at found
  split_ifs at found
  obtain rfl := Option.some.inj found
  simp [duplicateDeclaration]

/-! ## Declarations and default values -/

/-- The codes of the problems of declarations and default values. -/
def declarationCodes : List Nat := [3200, 3201, 3202, 3203, 3205]

namespace Node

theorem coded_checkFields (n : Node) : Coded [3202] n.checkFields :=
  .map (by simp [Problem.duplicateField, Problem.error]) _

theorem coded_checkDefaults (n : Node) (meanings : Meanings) :
    Coded [3200] (n.checkDefaults meanings) := by
  unfold checkDefaults
  cases n.typeChild? with
  | none => exact .nil
  | some typeNode =>
    dsimp only
    split_ifs
    · exact .nil
    · refine .filterMap (fun variableNode d found => ?_) _
      obtain ⟨valueNode, -, found⟩ := Option.bind_eq_some_iff.mp found
      split_ifs at found
      obtain rfl := Option.some.inj found
      simp [Problem.invalidDefault, Problem.error]

theorem coded_checkEnum (n : Node) : Coded [3201, 3203] n.checkEnum := by
  refine .append (.map (by simp [Problem.duplicateEnumSymbol, Problem.error]) _) ?_
  intro d mem
  obtain ⟨choice, -, found⟩ := Option.bind_eq_some_iff.mp (Option.mem_toList.mp mem)
  obtain ⟨leaf, -, found⟩ := Option.bind_eq_some_iff.mp found
  dsimp only at found
  split_ifs at found
  obtain rfl := Option.some.inj found
  simp [Problem.unknownEnumDefault, Problem.error]

theorem coded_checkMessage (n : Node) : Coded [3202, 3205] n.checkMessage := by
  refine .append (.map (by simp [Problem.duplicateField, Problem.error]) _) ?_
  intro d mem
  obtain ⟨result, -, found⟩ := Option.bind_eq_some_iff.mp (Option.mem_toList.mp mem)
  split_ifs at found
  obtain rfl := Option.some.inj found
  simp [Problem.onewayResult, Problem.error]

theorem coded_check (n : Node) (meanings : Meanings) : Coded declarationCodes (n.check meanings) := by
  unfold check
  split
  · exact n.coded_checkFields.mono (by decide)
  · exact n.coded_checkFields.mono (by decide)
  · exact (n.coded_checkDefaults meanings).mono (by decide)
  · exact (n.coded_checkDefaults meanings).mono (by decide)
  · exact n.coded_checkEnum.mono (by decide)
  · exact n.coded_checkMessage.mono (by decide)
  · exact .nil

end Node

namespace Element

mutual

theorem coded_check (meanings : Meanings) (start : Nat) (e : Element) :
    Coded declarationCodes (e.check meanings start) := by
  cases e with
  | leaf t => exact .nil
  | node l children =>
    rw [check]
    refine .append (Node.coded_check _ meanings) ?_
    split
    · exact .nil
    · exact .nil
    · exact .nil
    · exact coded_checkAll meanings start children

theorem coded_checkAll (meanings : Meanings) (start : Nat) (es : List Element) :
    Coded declarationCodes (checkAll meanings start es) := by
  cases es with
  | nil => exact .nil
  | cons e rest =>
    rw [checkAll]
    exact .append (e.coded_check meanings start) (coded_checkAll meanings _ rest)

end

end Element

/-! ## The checks of a document -/

namespace CheckInput

theorem coded_checkImports (i : CheckInput) : Coded [3001, 3002, 4000] i.checkImports := by
  refine .filterMap (fun (statement, target) d found => ?_) _
  dsimp only [checkImport?] at found
  split at found
  · contradiction
  · obtain rfl := Option.some.inj found
    simp [Problem.importNotFound, Problem.error]
  · obtain rfl := Option.some.inj found
    simp [Problem.importUnreadable, Problem.error]
  · obtain rfl := Option.some.inj found
    simp [Problem.importPending]
  · split_ifs at found
    obtain rfl := Option.some.inj found
    simp [Problem.importUnreadable, Problem.error]

theorem coded_checkCycle (i : CheckInput) : Coded [3003] i.checkCycle := by
  dsimp only [checkCycle]
  split_ifs
  · exact .nil
  · split
    · exact .nil
    · simp [Coded, Problem.importCycle, Problem.error]

theorem coded_checkOwnDuplicates (i : CheckInput) : Coded [3000] i.checkOwnDuplicates := by
  refine .filterMap (fun s d found => ?_) _
  dsimp only at found
  split_ifs at found
  obtain rfl := Option.some.inj found
  simp [Problem.duplicateImported, Problem.error]

theorem coded_checkImportedDuplicates (i : CheckInput) : Coded [3000] i.checkImportedDuplicates := by
  refine .flatMap (fun name => ?_) _
  dsimp only
  split_ifs
  · exact .nil
  · exact .map (by simp [Problem.duplicateBetweenImports, Problem.error]) _

theorem coded_checkReferences (i : CheckInput) : Coded [3100, 3101, 3204] i.checkReferences := by
  refine .filterMap (fun (r, result) d found => ?_) _
  dsimp only at found
  cases result with
  | unresolved =>
    dsimp only [checkReference?] at found
    split_ifs at found
    obtain rfl := Option.some.inj found
    simp [Problem.unknownType, Problem.error]
  | ambiguous candidates =>
    obtain rfl := Option.some.inj found
    simp [Problem.ambiguousType, Problem.error]
  | primitive name =>
    dsimp only [checkReference?] at found
    split_ifs at found
    obtain rfl := Option.some.inj found
    simp [Problem.throwsOther, Problem.error]
  | resolved s =>
    dsimp only [checkReference?] at found
    split_ifs at found
    obtain rfl := Option.some.inj found
    simp [Problem.throwsOther, Problem.error]

theorem coded_checkTree (i : CheckInput) : Coded declarationCodes i.checkTree := by
  unfold checkTree
  cases i.own.tree with
  | none => exact .nil
  | some tree => exact tree.element.coded_check _ 0

end CheckInput

end AvroIdl
