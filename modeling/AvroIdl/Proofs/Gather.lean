import AvroIdl.Gather
import Mathlib.Data.List.Nodup
import Mathlib.Logic.Relation

/-!
# What is gathered

`gather` finds what can be reached from the pending nodes without leaving those that remain, and
nothing else: `mem_gather`. It finds each node once, and the order of the nodes that remain makes no
difference to it: `gather_perm`.
-/

namespace AvroIdl

variable {α : Type} [DecidableEq α] {next : α → List α} {remaining pending : List α}

/-- One step along an edge that ends within a set. -/
def StepsWithin (next : α → List α) (within : List α) (a b : α) : Prop := b ∈ next a ∧ b ∈ within

theorem mem_of_find?_contains {u : α} (found : pending.find? remaining.contains = some u) :
    u ∈ pending ∧ u ∈ remaining :=
  ⟨List.mem_of_find?_eq_some found, List.contains_iff_mem.mp (List.find?_some found)⟩

theorem gather_of_none (none : pending.find? remaining.contains = none) :
    gather next remaining pending = [] := by
  rw [gather]
  split
  next => rfl
  next u found => rw [none] at found; contradiction

theorem gather_of_found {u : α} (found : pending.find? remaining.contains = some u) :
    gather next remaining pending = u :: gather next (remaining.erase u) (pending ++ next u) := by
  rw [gather]
  split
  next none => rw [none] at found; contradiction
  next u' found' =>
    rw [found] at found'
    rw [Option.some.inj found']

theorem pending_mem_gather {u : α} (mem : u ∈ pending) (remains : u ∈ remaining) :
    u ∈ gather next remaining pending := by
  fun_induction gather next remaining pending with
  | case1 remaining pending none =>
    have := List.find?_eq_none.mp none u mem
    simp [remains] at this
  | case2 remaining pending first found ih =>
    by_cases same : u = first
    · exact same ▸ List.mem_cons_self
    · apply List.mem_cons_of_mem
      exact ih (List.mem_append_left _ mem) ((List.mem_erase_of_ne same).mpr remains)

theorem next_mem_gather {u v : α} (mem : u ∈ gather next remaining pending) (edge : v ∈ next u)
    (remains : v ∈ remaining) : v ∈ gather next remaining pending := by
  fun_induction gather next remaining pending with
  | case1 => contradiction
  | case2 remaining pending first found ih =>
    by_cases same : v = first
    · exact same ▸ List.mem_cons_self
    · have remains := (List.mem_erase_of_ne same).mpr remains
      apply List.mem_cons_of_mem
      rcases List.mem_cons.mp mem with rfl | mem
      · exact pending_mem_gather (List.mem_append_right _ edge) remains
      · exact ih mem remains

theorem reached_of_mem_gather {v : α} (mem : v ∈ gather next remaining pending) :
    ∃ u ∈ pending, u ∈ remaining ∧
      Relation.ReflTransGen (StepsWithin next remaining) u v := by
  fun_induction gather next remaining pending with
  | case1 => contradiction
  | case2 remaining pending first found ih =>
    obtain ⟨here, remains⟩ := mem_of_find?_contains found
    rcases List.mem_cons.mp mem with rfl | mem
    · exact ⟨v, here, remains, .refl⟩
    · obtain ⟨u, start, left, path⟩ := ih mem
      have left := List.mem_of_mem_erase left
      have path : Relation.ReflTransGen (StepsWithin next remaining) u v := by
        refine Relation.ReflTransGen.mono (fun a b step => ?_) _ _ path
        exact ⟨step.1, List.mem_of_mem_erase step.2⟩
      rcases List.mem_append.mp start with start | edge
      · exact ⟨u, start, left, path⟩
      · exact ⟨first, here, remains, .head ⟨edge, left⟩ path⟩

/-- What is gathered is what can be reached. -/
theorem mem_gather {v : α} :
    v ∈ gather next remaining pending ↔
      ∃ u ∈ pending, u ∈ remaining ∧
        Relation.ReflTransGen (StepsWithin next remaining) u v := by
  constructor
  · exact reached_of_mem_gather
  · rintro ⟨u, start, remains, path⟩
    induction path with
    | refl => exact pending_mem_gather start remains
    | tail _ step ih => exact next_mem_gather ih step.1 step.2

theorem gather_subset : gather next remaining pending ⊆ remaining := by
  intro v mem
  obtain ⟨u, -, remains, path⟩ := mem_gather.mp mem
  cases path with
  | refl => exact remains
  | tail _ step => exact step.2

theorem nodup_gather (distinct : remaining.Nodup) : (gather next remaining pending).Nodup := by
  fun_induction gather next remaining pending with
  | case1 => exact List.nodup_nil
  | case2 remaining pending first found ih =>
    refine List.nodup_cons.mpr ⟨fun mem => ?_, ih (distinct.erase _)⟩
    exact distinct.not_mem_erase (gather_subset mem)

theorem gather_perm {remaining' : List α} (perm : remaining.Perm remaining') :
    gather next remaining pending = gather next remaining' pending := by
  have same {remaining remaining' : List α} (perm : remaining.Perm remaining') :
      remaining.contains = remaining'.contains := funext fun u => perm.contains_eq
  fun_induction gather next remaining pending generalizing remaining' with
  | case1 remaining pending none =>
    rw [same perm] at none
    rw [gather_of_none none]
  | case2 remaining pending first found ih =>
    rw [same perm] at found
    rw [gather_of_found found, ih (perm.erase first)]

/-- Where all that edges lead to remains, what is gathered after one step is what can be reached in
one or more. -/
theorem mem_gather_next (all : ∀ a, ∀ b ∈ next a, b ∈ remaining) {u v : α} :
    v ∈ gather next remaining (next u) ↔ Relation.TransGen (fun a b => b ∈ next a) u v := by
  have within : StepsWithin next remaining = fun a b => b ∈ next a := by
    funext a b
    exact propext ⟨And.left, fun edge => ⟨edge, all a b edge⟩⟩
  rw [mem_gather, within, Relation.TransGen.head'_iff]
  constructor
  · rintro ⟨w, edge, -, path⟩
    exact ⟨w, edge, path⟩
  · rintro ⟨w, edge, path⟩
    exact ⟨w, edge, all u w edge, path⟩

end AvroIdl
