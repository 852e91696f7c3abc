import AvroIdl.Path
import Mathlib.Tactic.SplitIfs

/-!
# Shortest paths

A path that is cleaned has no empty parts and none that stand for the directory itself, and steps up
only at its start. Such parts are kept as they are, `Path.refold`, and so a path that was cleaned is
not changed by cleaning it again: `Path.clean_clean`.
-/

namespace AvroIdl

namespace Bytes

theorem splitOn_cons (b c : UInt8) (rest : Bytes) :
    splitOn b (c :: rest) =
      if c = b then [] :: splitOn b rest
      else match splitOn b rest with
        | [] => [[c]]
        | part :: parts => (c :: part) :: parts := rfl

theorem splitOn_eq (b : UInt8) (s : Bytes) : splitOn b s = List.splitOn b s := by
  induction s with
  | nil => rfl
  | cons c rest ih =>
    have more := List.splitOn_ne_nil b rest
    rw [splitOn_cons, List.splitOn_cons_eq_if_modifyHead, ih]
    by_cases same : c = b
    · simp [same]
    · cases split : List.splitOn b rest with
      | nil => contradiction
      | cons part parts => simp [same]

theorem splitOn_joinWith {b : UInt8} {parts : List Bytes} (undivided : ∀ part ∈ parts, b ∉ part)
    (some : parts ≠ []) : splitOn b (joinWith [b] parts) = parts := by
  rw [splitOn_eq]
  exact List.splitOn_intercalate b undivided some

theorem notMem_of_mem_splitOn {b : UInt8} {s part : Bytes} (mem : part ∈ splitOn b s) :
    b ∉ part := by
  induction s generalizing part with
  | nil =>
    obtain rfl := List.mem_singleton.mp mem
    exact List.not_mem_nil
  | cons c rest ih =>
    rw [splitOn_cons] at mem
    by_cases same : c = b
    · rw [if_pos same] at mem
      rcases List.mem_cons.mp mem with rfl | mem
      · exact List.not_mem_nil
      · exact ih mem
    · rw [if_neg same] at mem
      cases split : splitOn b rest with
      | nil => simp [split] at mem; simp [mem, Ne.symm same]
      | cons first parts =>
        rw [split] at mem ih
        rcases List.mem_cons.mp mem with rfl | mem
        · simp [Ne.symm same, ih List.mem_cons_self]
        · exact ih (.tail _ mem)

end Bytes

namespace Path

/-- Parts of a path, which stand last first, that no step can take away or leave out. -/
def Stacked (rooted : Bool) : List Bytes → Prop
  | [] => True
  | part :: before =>
    part ≠ [] ∧ part ≠ here ∧ slash ∉ part ∧
      (part = up → rooted = false ∧ ∀ above ∈ before, above = up) ∧ Stacked rooted before

variable {rooted : Bool} {parts : List Bytes}

theorem step_up (rooted : Bool) (parts : List Bytes) :
    step rooted parts up =
      match parts with
      | [] => if rooted then [] else [up]
      | last :: rest => if last = up then up :: parts else rest :=
  (if_neg (by decide)).trans (if_pos rfl)

theorem step_plain {part : Bytes} (some : part ≠ []) (other : part ≠ here) (climbs : part ≠ up) :
    step rooted parts part = part :: parts :=
  (if_neg (by simp [some, other])).trans (if_neg climbs)

theorem stacked_step (h : Stacked rooted parts) {part : Bytes} (undivided : slash ∉ part) :
    Stacked rooted (step rooted parts part) := by
  by_cases skipped : part = [] ∨ part = here
  · have same : step rooted parts part = parts := if_pos (by simpa using skipped)
    rw [same]
    exact h
  obtain ⟨some, other⟩ := not_or.mp skipped
  by_cases climbs : part = up
  · subst climbs
    rw [step_up]
    cases parts with
    | nil =>
      cases rooted with
      | true => trivial
      | false => exact ⟨some, other, undivided, fun _ => ⟨rfl, nofun⟩, trivial⟩
    | cons last rest =>
      dsimp only
      split_ifs with climbed
      · obtain ⟨free, ups⟩ := h.2.2.2.1 climbed
        refine ⟨some, other, undivided, fun _ => ⟨free, fun above mem => ?_⟩, h⟩
        rcases List.mem_cons.mp mem with rfl | mem
        · exact climbed
        · exact ups above mem
      · exact h.2.2.2.2
  · rw [step_plain some other climbs]
    exact ⟨some, other, undivided, fun same => absurd same climbs, h⟩

theorem stacked_foldl {added : List Bytes} (h : Stacked rooted parts)
    (undivided : ∀ part ∈ added, slash ∉ part) :
    Stacked rooted (added.foldl (step rooted) parts) := by
  induction added generalizing parts with
  | nil => exact h
  | cons part rest ih =>
    exact ih (stacked_step h (undivided part List.mem_cons_self))
      fun other mem => undivided other (.tail _ mem)

theorem step_stacked {part : Bytes} (h : Stacked rooted (part :: parts)) :
    step rooted parts part = part :: parts := by
  obtain ⟨some, other, -, start, -⟩ := h
  by_cases climbs : part = up
  · obtain ⟨rfl, ups⟩ := start climbs
    subst climbs
    rw [step_up]
    cases parts with
    | nil => rfl
    | cons last rest => exact if_pos (ups last List.mem_cons_self)
  · exact step_plain some other climbs

/-- Parts that were put in order once are kept as they are. -/
theorem refold (h : Stacked rooted parts) : parts.reverse.foldl (step rooted) [] = parts := by
  rw [List.foldl_reverse]
  induction parts with
  | nil => rfl
  | cons part rest ih => rw [List.foldr_cons, ih h.2.2.2.2, step_stacked h]

theorem Stacked.of_mem (h : Stacked rooted parts) {part : Bytes} (mem : part ∈ parts) :
    part ≠ [] ∧ slash ∉ part := by
  induction parts with
  | nil => contradiction
  | cons last rest ih =>
    rcases List.mem_cons.mp mem with rfl | mem
    · exact ⟨h.1, h.2.2.1⟩
    · exact ih h.2.2.2.2 mem

/-- The parts of a path that are kept, the last of which comes first. -/
def stack (p : Bytes) : List Bytes := (p.splitOn slash).foldl (step (isAbsolute p)) []

theorem clean_eq (p : Bytes) :
    clean p =
      if isAbsolute p then slash :: Bytes.joinWith [slash] (stack p).reverse
      else if (stack p).reverse.isEmpty then here
      else Bytes.joinWith [slash] (stack p).reverse := rfl

theorem stacked_stack (p : Bytes) : Stacked (isAbsolute p) (stack p) :=
  stacked_foldl trivial fun _ => Bytes.notMem_of_mem_splitOn

theorem splitOn_join (h : Stacked rooted parts) (some : parts ≠ []) :
    Bytes.splitOn slash (Bytes.joinWith [slash] parts.reverse) = parts.reverse :=
  Bytes.splitOn_joinWith (fun part mem => (h.of_mem (List.mem_reverse.mp mem)).2) (by simpa)

theorem stack_rooted (h : Stacked true parts) :
    stack (slash :: Bytes.joinWith [slash] parts.reverse) = parts := by
  have rooted : isAbsolute (slash :: Bytes.joinWith [slash] parts.reverse) = true := by
    simp [isAbsolute]
  rw [stack, rooted, Bytes.splitOn_cons, if_pos rfl, List.foldl_cons]
  by_cases none : parts = []
  · subst none
    rfl
  · rw [splitOn_join h none]
    exact refold h

theorem isAbsolute_join (h : Stacked rooted parts) :
    isAbsolute (Bytes.joinWith [slash] parts.reverse) = false := by
  cases order : parts.reverse with
  | nil => rfl
  | cons first rest =>
    obtain ⟨some, undivided⟩ := h.of_mem (List.mem_reverse.mp (order ▸ List.mem_cons_self))
    cases first with
    | nil => contradiction
    | cons c more =>
      have other : c ≠ slash := fun same => undivided (same ▸ List.mem_cons_self)
      cases rest <;> simp [isAbsolute, Bytes.joinWith, other]

theorem stack_relative (h : Stacked false parts) (some : parts ≠ []) :
    stack (Bytes.joinWith [slash] parts.reverse) = parts := by
  rw [stack, isAbsolute_join h, splitOn_join h some, refold h]

/-- Cleaning a path twice is cleaning it once. -/
theorem clean_clean (p : Bytes) : clean (clean p) = clean p := by
  have stacked := stacked_stack p
  rw [clean_eq p]
  split_ifs with rooted none
  · rw [rooted] at stacked
    rw [clean_eq, stack_rooted stacked, isAbsolute]
    rfl
  · decide
  · rw [Bool.not_eq_true] at rooted
    rw [rooted] at stacked
    rw [clean_eq, isAbsolute_join stacked, stack_relative stacked (by simpa using none)]
    simp [none]

end Path

end AvroIdl
