import AvroIdl.Proofs.Parser.Actions
import AvroIdl.Proofs.Parser.Stack

/-!
# What a step of the automaton does not depend on

A step sees the first goal, and of the number of tokens taken it sees only whether it has grown since
a statement began. So the automaton does the same in every context:

* `Control.step_under`: the goals behind the first one stay, and make no difference;
* `Control.step_norm`: two states that differ in the number of tokens taken go on in the same way.
-/

namespace AvroIdl

namespace Control

/-- The state with further goals behind its own. -/
def under (c : Control) (behind : List Goal) : Control := { c with goals := c.goals ++ behind }

variable {c d : Control} {comma : Bool} {t : Token}

section Under

variable (behind : List Goal)

theorem under_under (c : Control) (others : List Goal) :
    (c.under behind).under others = c.under (behind ++ others) := by
  simp [under]

theorem atStatementEnd_under (c : Control) (any : Bool) :
    (c.under behind).atStatementEnd any t = c.atStatementEnd any t := by
  unfold atStatementEnd under
  rfl

theorem recover_under (c : Control) (skipped : Option Skipped) :
    (c.under behind).recover t skipped = (c.recover t skipped).under behind := by
  rcases skipped with _ | _ | _
  · rfl
  · simp only [recover, atStatementEnd_under]
    split_ifs <;> rfl
  · simp only [recover]
    split_ifs <;> rfl

theorem openBrace_under (c : Control) (inside : List Goal) :
    (c.under behind).openBrace t inside = (c.openBrace t inside).under behind := by
  simp only [openBrace]
  split_ifs
  · simp [under, count, push]
  · exact c.recover_under behind _

theorem work_under (c : Control) (g : Goal) :
    (c.under behind).work comma t g = (c.work comma t g).under behind := by
  cases g with
  | item body =>
    cases body <;> simp only [work, item] <;> (try split_ifs) <;> rfl
  | declaration body =>
    have recovers := c.recover_under (t := t) behind (some .statement)
    simp only [work, declaration]
    split_ifs <;> first | exact recovers | rfl
  | enumBody => exact c.openBrace_under behind _
  | block body =>
    simp only [work]
    split_ifs
    · exact openBrace_under behind { c with blocks := c.blocks + 1 } _
    · exact c.openBrace_under behind _
  | group skipped closers =>
    simp only [work, group]
    cases t.closer? <;> cases closers.tail <;> dsimp only <;> split_ifs <;> rfl
  | skip skipped any =>
    cases skipped <;> simp only [work, skipOne, atStatementEnd_under] <;> split_ifs <;>
      (try split) <;> rfl
  | moreItems body taken =>
    simp only [work, show (c.under behind).taken = c.taken from rfl]
    split_ifs <;> rfl
  | close | recover => rfl
  | _ =>
    simp only [work, typeBody]
    (try split_ifs) <;> rfl

theorem unwind_under (c : Control) (g : Goal) :
    (c.under behind).unwind t g = (c.unwind t g).under behind := by
  cases g with
  | recover skipped => exact recover_under behind { c with ok := true } skipped
  | _ => rfl

/-- The goals behind the first one make no difference to a step, and stay. -/
theorem step_under (some : c.goals ≠ []) :
    (c.under behind).step comma t = (c.step comma t).under behind := by
  obtain ⟨goals, ok, taken, blocks⟩ := c
  cases goals with
  | nil => contradiction
  | cons g rest =>
    cases ok with
    | true => exact work_under behind ⟨rest, true, taken, blocks⟩ g
    | false => exact unwind_under behind ⟨rest, false, taken, blocks⟩ g

theorem actions_under (some : c.goals ≠ []) :
    (c.under behind).actions comma t = c.actions comma t := by
  obtain ⟨goals, ok, taken, blocks⟩ := c
  cases goals with
  | nil => contradiction
  | cons g rest => cases ok <;> cases g <;> rfl

end Under

/-! ## The number of tokens taken -/

end Control

/-- A goal with the number that it remembers counted from the number of tokens taken. -/
def Goal.since (taken : Nat) : Goal → Goal
  | moreItems body before => moreItems body (before + 1 - taken)
  | g => g

/-- Goals that remember no number. -/
def Goal.timeless : Goal → Bool
  | moreItems _ _ => false
  | _ => true

theorem Goal.since_timeless {g : Goal} (h : g.timeless = true) (taken : Nat) : g.since taken = g := by
  cases g <;> first | rfl | contradiction

theorem Goal.map_since_timeless {goals : List Goal} (h : goals.all Goal.timeless = true)
    (taken : Nat) : goals.map (Goal.since taken) = goals := by
  rw [List.map_congr_left fun g mem => Goal.since_timeless (List.all_eq_true.mp h g mem) taken,
    List.map_id']

/-- One more token makes the number that a goal remembers one less. -/
theorem Goal.since_succ (g : Goal) (taken : Nat) : g.since (taken + 1) = (g.since taken).since 2 := by
  cases g with
  | moreItems body before =>
    simp only [since, Goal.moreItems.injEq, true_and]
    omega
  | _ => rfl

namespace Control

variable {c d : Control} {comma : Bool} {t : Token}

/-- The state with numbers counted from the number of tokens taken. -/
def norm (c : Control) : Control := { c with goals := c.goals.map (Goal.since c.taken), taken := 1 }

theorem norm_eq_iff : c.norm = d.norm ↔
    c.goals.map (Goal.since c.taken) = d.goals.map (Goal.since d.taken) ∧ c.ok = d.ok ∧
      c.blocks = d.blocks := by
  simp [norm]

theorem norm_push (h : c.norm = d.norm) {goals : List Goal}
    (timeless : goals.all Goal.timeless = true) : (c.push goals).norm = (d.push goals).norm := by
  rw [norm_eq_iff] at h ⊢
  simp [push, Goal.map_since_timeless timeless, h]

theorem norm_count (h : c.norm = d.norm) : c.count.norm = d.count.norm := by
  rw [norm_eq_iff] at h ⊢
  have later (c : Control) : c.goals.map (Goal.since (c.taken + 1)) =
      (c.goals.map (Goal.since c.taken)).map (Goal.since 2) := by
    rw [List.map_map]
    exact List.map_congr_left fun g _ => g.since_succ c.taken
  refine ⟨?_, h.2.1, h.2.2⟩
  change c.goals.map (Goal.since (c.taken + 1)) = d.goals.map (Goal.since (d.taken + 1))
  rw [later c, later d, h.1]

theorem norm_fail (h : c.norm = d.norm) : c.fail.norm = d.fail.norm := by
  rw [norm_eq_iff] at h ⊢
  exact ⟨h.1, rfl, h.2.2⟩

theorem norm_resume (h : c.norm = d.norm) :
    ({ c with ok := true } : Control).norm = ({ d with ok := true } : Control).norm := by
  rw [norm_eq_iff] at h ⊢
  exact ⟨h.1, rfl, h.2.2⟩

theorem norm_blocks (h : c.norm = d.norm) (change : Nat → Nat) :
    ({ c with blocks := change c.blocks } : Control).norm =
      ({ d with blocks := change d.blocks } : Control).norm := by
  rw [norm_eq_iff] at h ⊢
  exact ⟨h.1, h.2.1, congrArg change h.2.2⟩

theorem norm_atStatementEnd (h : c.norm = d.norm) (any : Bool) :
    c.atStatementEnd any t = d.atStatementEnd any t := by
  simp only [atStatementEnd, (norm_eq_iff.mp h).2.2]

theorem norm_recover (h : c.norm = d.norm) (skipped : Option Skipped) :
    (c.recover t skipped).norm = (d.recover t skipped).norm := by
  rcases skipped with _ | _ | _
  · exact h
  · simp only [recover, norm_atStatementEnd h]
    split_ifs
    · exact h
    · exact norm_push h rfl
  · simp only [recover]
    split_ifs
    · exact h
    · exact norm_push h rfl

theorem norm_openBrace (h : c.norm = d.norm) {inside : List Goal}
    (timeless : inside.all Goal.timeless = true) :
    (c.openBrace t inside).norm = (d.openBrace t inside).norm := by
  simp only [openBrace]
  split_ifs
  · exact norm_push (norm_count h) timeless
  · exact norm_recover h _

/-- Goals that remember no number are worked on in the same way. -/
theorem norm_work (h : c.norm = d.norm) {g : Goal} (timeless : g.timeless = true) :
    (c.work comma t g).norm = (d.work comma t g).norm := by
  cases g with
  | moreItems => contradiction
  | items body =>
    simp only [work]
    split_ifs
    · exact h
    · rw [norm_eq_iff] at h ⊢
      simp [push, Goal.since, h]
  | item body =>
    cases body <;> simp only [work, item] <;> (try split_ifs) <;>
      first | exact norm_push (norm_count h) rfl | exact norm_push h rfl
  | declaration body =>
    simp only [work, declaration]
    split_ifs <;>
      first
        | exact norm_recover h _
        | exact norm_push (norm_count h) rfl
        | exact norm_push h rfl
  | enumBody => exact norm_openBrace h rfl
  | block body =>
    simp only [work]
    split_ifs
    · exact norm_openBrace (norm_blocks h (· + 1)) rfl
    · exact norm_openBrace h rfl
  | leaveBlock => exact norm_blocks h (· - 1)
  | close | recover => exact h
  | group skipped closers =>
    simp only [work, group]
    cases t.closer? <;> cases closers.tail <;> dsimp only <;> split_ifs <;>
      first
        | exact norm_push (norm_count h) rfl
        | exact norm_push h rfl
        | exact norm_count h
  | skip skipped any =>
    cases skipped <;> simp only [work, skipOne, norm_atStatementEnd h] <;> split_ifs <;>
      (try split) <;>
      first
        | exact h
        | exact norm_push (norm_count h) rfl
        | exact norm_count h
  | _ =>
    simp only [work, typeBody]
    (try split_ifs) <;>
      first
        | exact h
        | exact norm_push (norm_count h) rfl
        | exact norm_push (norm_fail h) rfl
        | exact norm_push h rfl
        | exact norm_count h
        | exact norm_fail h

theorem norm_unwind (h : c.norm = d.norm) (g : Goal) :
    (c.unwind t g).norm = (d.unwind t g).norm := by
  cases g with
  | recover skipped => exact norm_recover (norm_resume h) skipped
  | leaveBlock => exact norm_blocks h (· - 1)
  | _ => exact h

/-- Two states that differ in the number of tokens taken have the same kind of goal first. -/
theorem norm_goals (h : c.norm = d.norm) :
    (c.goals = [] ∧ d.goals = []) ∨ ∃ g g' rest rest', c.goals = g :: rest ∧ d.goals = g' :: rest' ∧
      g.since c.taken = g'.since d.taken ∧
      ({ c with goals := rest } : Control).norm = ({ d with goals := rest' } : Control).norm := by
  obtain ⟨goals, ok, blocks⟩ := norm_eq_iff.mp h
  cases hc : c.goals with
  | nil =>
    rw [hc, List.map_nil, eq_comm, List.map_eq_nil_iff] at goals
    exact .inl ⟨rfl, goals⟩
  | cons g rest =>
    rw [hc, List.map_cons] at goals
    obtain ⟨g', rest', hd, first, others⟩ := List.map_eq_cons_iff.mp goals.symm
    exact .inr ⟨g, g', rest, rest', rfl, hd, first.symm, norm_eq_iff.mpr ⟨others.symm, ok, blocks⟩⟩

theorem norm_workActions (h : c.norm = d.norm) (g : Goal) :
    c.workActions comma t g = d.workActions comma t g := by
  have same (any : Bool) : c.atStatementEnd any t = d.atStatementEnd any t := norm_atStatementEnd h any
  have recovers (skipped : Option Skipped) :
      c.recoverActions t skipped = d.recoverActions t skipped := by
    rcases skipped with _ | _ | _ <;> simp [recoverActions, same]
  cases g with
  | skip skipped any => cases skipped <;> simp [workActions, same]
  | declaration body => simp [workActions, declarationActions, recovers]
  | block | enumBody => simp [workActions, openBraceActions, recovers]
  | _ => rfl

theorem norm_unwindActions (h : c.norm = d.norm) (g : Goal) :
    c.unwindActions t g = d.unwindActions t g := by
  cases g with
  | recover skipped =>
    rcases skipped with _ | _ | _ <;>
      simp [unwindActions, recoverActions, norm_atStatementEnd h]
  | _ => rfl

/-- A goal that remembers a number is told apart from the others by its number. -/
theorem since_eq {g g' : Goal} (h : g.since c.taken = g'.since d.taken) :
    (g = g' ∧ g.timeless = true) ∨
      ∃ body before before', g = .moreItems body before ∧ g' = .moreItems body before' ∧
        (before < c.taken ↔ before' < d.taken) := by
  by_cases timeless : g.timeless = true
  · rw [Goal.since_timeless timeless] at h
    refine .inl ⟨?_, timeless⟩
    cases g' with
    | moreItems => subst h; contradiction
    | _ => exact h
  · cases g with
    | moreItems body before =>
      cases g' with
      | moreItems body' before' =>
        simp only [Goal.since, Goal.moreItems.injEq] at h
        obtain ⟨rfl, h⟩ := h
        exact .inr ⟨body, before, before', rfl, rfl, by omega⟩
      | _ => contradiction
    | _ => exact absurd rfl timeless

/-- Two states that differ in the number of tokens taken go on in the same way, and do the same to
the tree. -/
theorem step_norm (h : c.norm = d.norm) :
    (c.step comma t).norm = (d.step comma t).norm ∧ c.actions comma t = d.actions comma t := by
  obtain ⟨goals, ok, taken, blocks⟩ := c
  obtain ⟨goals', ok', taken', blocks'⟩ := d
  obtain rfl : ok = ok' := (norm_eq_iff.mp h).2.1
  obtain ⟨rfl, rfl⟩ | ⟨g, g', rest, rest', rfl, rfl, first, behind⟩ := norm_goals h
  · exact ⟨h, rfl⟩
  · obtain ⟨rfl, timeless⟩ | ⟨body, before, before', rfl, rfl, same⟩ := since_eq first
    · cases ok with
      | true => exact ⟨norm_work behind timeless, norm_workActions behind g⟩
      | false => exact ⟨norm_unwind behind g, norm_unwindActions behind g⟩
    · cases ok with
      | true =>
        refine ⟨?_, rfl⟩
        simp only [step, work, if_true, same]
        split_ifs
        · exact norm_push behind (show [Goal.items body].all Goal.timeless = true from rfl)
        · exact behind
      | false => exact ⟨behind, rfl⟩

end Control

end AvroIdl
