import AvroIdl.Edit
import AvroIdl.Proofs.Refactor.Edit

/-!
# Edits in turn

The edits of a document are carried out in one pass over its text. Instead they can be carried out
one at a time, if the last one in the text goes first: an edit then finds what stands before it as it
was.

* `TextEdit.applyFrom_isOk`: the pass compares each edit with the one before it only, and yet it
  succeeds just when no two edits overlap;
* `TextEdit.inTurn_reverse`: what the pass gives is what the edits give in turn, from the last one to
  the first;
* `TextEdit.applyAll_inTurn`: both for edits that stand in any order.
-/

namespace AvroIdl

namespace TextEdit

/-- The edit without its document. -/
def toEdit (e : TextEdit) : Edit := ⟨e.span.start, e.span.len, e.newText⟩

/-- The text after edits that are carried out one at a time. -/
def inTurn (text : Bytes) (edits : List TextEdit) : Except EditOutOfRange Bytes :=
  edits.foldlM (fun text e => e.toEdit.apply text) text

/-- Edits from the highest start to the lowest. -/
def falling (edits : List TextEdit) : List TextEdit :=
  edits.mergeSort fun a b => decide (b.span.start ≤ a.span.start)

variable {text : Bytes} {last : Nat} {e : TextEdit} {edits : List TextEdit}

theorem applyFrom_cons_eq_ok (fits : e.span.start + e.span.len ≤ maxOffset) {edited : Bytes} :
    applyFrom text last (e :: edits) = .ok edited ↔
      last ≤ e.span.start ∧ e.span.start + e.span.len ≤ text.length ∧
        ∃ after, applyFrom text (e.span.start + e.span.len) edits = .ok after ∧
          text.slice last e.span.start ++ e.newText ++ after = edited := by
  rw [applyFrom, Span.stop_eq fits]
  split_ifs with out
  · simp only [Bool.or_eq_true, decide_eq_true_eq] at out
    refine iff_of_false (by simp) ?_
    rintro ⟨after, inside, -⟩
    omega
  · simp only [Bool.or_eq_true, decide_eq_true_eq, not_or, Nat.not_lt] at out
    cases applyFrom text (e.span.start + e.span.len) edits <;>
      simp [bind, Except.bind, pure, Except.pure, out]

/-- The pass succeeds just when all edits stand behind its start and inside the text, and no two of
them overlap. -/
theorem applyFrom_isOk (fits : ∀ e ∈ edits, e.span.start + e.span.len ≤ maxOffset) :
    (∃ edited, applyFrom text last edits = .ok edited) ↔
      (∀ e ∈ edits, last ≤ e.span.start ∧ e.span.start + e.span.len ≤ text.length) ∧
        edits.Pairwise fun a b => a.span.start + a.span.len ≤ b.span.start := by
  induction edits generalizing last with
  | nil => simp [applyFrom]
  | cons e rest ih =>
    obtain ⟨first, others⟩ := List.forall_mem_cons.mp fits
    simp only [applyFrom_cons_eq_ok first, List.forall_mem_cons, List.pairwise_cons]
    constructor
    · rintro ⟨_, behind, inside, after, passed, -⟩
      obtain ⟨next, apart⟩ := (ih others).mp ⟨after, passed⟩
      -- What stands behind the end of `e` stands behind where the pass began.
      refine ⟨⟨⟨behind, inside⟩, fun b mem => ⟨?_, (next b mem).2⟩⟩, fun b mem => (next b mem).1, apart⟩
      have := (next b mem).1
      omega
    · rintro ⟨⟨⟨behind, inside⟩, next⟩, ahead, apart⟩
      obtain ⟨after, passed⟩ := (ih others).mpr ⟨fun b mem => ⟨ahead b mem, (next b mem).2⟩, apart⟩
      exact ⟨_, behind, inside, after, passed, rfl⟩

/-- An edit in front of what the pass has rewritten finds its place as it was. -/
theorem apply_take (inside : e.span.start + e.span.len ≤ text.length) (after : Bytes) :
    e.toEdit.apply (text.take (e.span.start + e.span.len) ++ after) =
      .ok (text.take e.span.start ++ e.newText ++ after) := by
  have size : (text.take (e.span.start + e.span.len)).length = e.span.start + e.span.len := by
    rw [List.length_take, Nat.min_eq_left inside]
  have front : (text.take (e.span.start + e.span.len) ++ after).take e.span.start =
      text.take e.span.start := by
    rw [List.take_append_of_le_length (by omega), List.take_take, Nat.min_eq_left (by omega)]
  have back : (text.take (e.span.start + e.span.len) ++ after).drop (e.span.start + e.span.len) =
      after := List.drop_left' size
  have room : ¬ (text.take (e.span.start + e.span.len) ++ after).length <
      e.toEdit.start + e.toEdit.oldLen := by
    rw [List.length_append, size]
    exact Nat.not_lt.mpr (Nat.le_add_right _ _)
  rw [Edit.apply, if_neg room]
  simp only [toEdit, front, back]

/-- What the pass gives from an offset on, after the text before it, is what the edits give from the
last one to the first. -/
theorem inTurn_reverse (fits : ∀ e ∈ edits, e.span.start + e.span.len ≤ maxOffset) {after : Bytes}
    (passed : applyFrom text last edits = .ok after) :
    inTurn text edits.reverse = .ok (text.take last ++ after) := by
  induction edits generalizing last after with
  | nil =>
    obtain rfl : text.drop last = after := by simpa [applyFrom] using passed
    rw [List.take_append_drop]
    rfl
  | cons e rest ih =>
    obtain ⟨first, others⟩ := List.forall_mem_cons.mp fits
    obtain ⟨behind, inside, rewritten, later, rfl⟩ := (applyFrom_cons_eq_ok first).mp passed
    replace later := ih others later
    have between : text.take last ++ text.slice last e.span.start = text.take e.span.start := by
      have part := List.take_append_drop last (text.take e.span.start)
      rwa [List.take_take, Nat.min_eq_left behind] at part
    rw [inTurn] at later ⊢
    rw [List.reverse_cons, List.foldlM_append, later]
    simp only [bind, Except.bind, List.foldlM_cons, List.foldlM_nil, apply_take inside, pure,
      Except.pure]
    rw [← List.append_assoc, ← List.append_assoc, between]

section

variable (document : ∀ a ∈ edits, ∀ b ∈ edits, a.uri = b.uri)
  (starts : edits.Pairwise fun a b => a.span.start ≠ b.span.start)

include document starts

/-- From the lowest start to the highest, every start is above the one before. -/
theorem pairwise_falling : (falling edits).reverse.Pairwise fun a b =>
    a.uri = b.uri ∧ a.span.start < b.span.start := by
  have perm : (falling edits).Perm edits := List.mergeSort_perm ..
  have sorted : (falling edits).Pairwise fun a b => decide (b.span.start ≤ a.span.start) = true :=
    List.pairwise_mergeSort (fun a b c ab bc => by simp at *; omega) (fun a b => by simp; omega) edits
  have apart := (perm.pairwise_iff fun h => Ne.symm h).mpr starts
  rw [List.pairwise_reverse]
  refine (sorted.and apart).imp_of_mem fun {a b} ha hb h => ⟨?_, ?_⟩
  · exact document b (perm.subset hb) a (perm.subset ha)
  · have := of_decide_eq_true h.1
    have := h.2
    omega

/-- Edits of one document with different starts are sorted in one way, whatever order they come in. -/
theorem sort_eq_reverse {others : List TextEdit} (perm : others.Perm edits) :
    sort others = (falling edits).reverse := by
  have same : edits.Perm (falling edits).reverse :=
    (List.mergeSort_perm ..).symm.trans (List.reverse_perm _).symm
  exact sort_eq (perm.trans same) (pairwise_falling document starts)

/-- The edits of a document that start at different places can be carried out just when all lie inside
the text and no two overlap. The text is then the one that they give one at a time, from the
highest start to the lowest, and the order in which they come makes no difference. -/
theorem applyAll_inTurn (fits : ∀ e ∈ edits, e.span.start + e.span.len ≤ maxOffset) (text : Bytes) :
    ((∃ edited, applyAll text edits = .ok edited) ↔
      (∀ e ∈ edits, e.span.start + e.span.len ≤ text.length) ∧
        ∀ a ∈ edits, ∀ b ∈ edits, a.span.start < b.span.start →
          a.span.start + a.span.len ≤ b.span.start) ∧
    (∀ edited, applyAll text edits = .ok edited → inTurn text (falling edits) = .ok edited) ∧
    ∀ others : List TextEdit, others.Perm edits → applyAll text others = applyAll text edits := by
  have sorting := sort_eq_reverse document starts (.refl edits)
  have ordered := pairwise_falling document starts
  have perm : (falling edits).reverse.Perm edits :=
    (List.reverse_perm _).trans (List.mergeSort_perm ..)
  have fits : ∀ e ∈ (falling edits).reverse, e.span.start + e.span.len ≤ maxOffset :=
    fun e mem => fits e (perm.subset mem)
  refine ⟨?_, fun edited passed => ?_, fun others reordered => ?_⟩
  · rw [applyAll, sorting, applyFrom_isOk fits]
    simp only [Nat.zero_le, true_and, perm.mem_iff]
    refine and_congr_right fun _ => ⟨fun apart => ?_, fun apart => ?_⟩
    · intro a ha b hb less
      obtain ⟨i, hi, rfl⟩ := List.getElem_of_mem (perm.symm.subset ha)
      obtain ⟨j, hj, rfl⟩ := List.getElem_of_mem (perm.symm.subset hb)
      rw [List.pairwise_iff_getElem] at ordered apart
      rcases Nat.lt_trichotomy i j with before | rfl | behind
      · exact apart i j hi hj before
      · exact absurd less (Nat.lt_irrefl _)
      · have := (ordered j i hj hi behind).2
        omega
    · exact ordered.imp_of_mem fun ha hb h =>
        apart _ (perm.subset ha) _ (perm.subset hb) h.2
  · rw [applyAll, sorting] at passed
    simpa using inTurn_reverse fits passed
  · rw [applyAll, applyAll, sorting, sort_eq_reverse document starts reordered]

end

/-- An insertion, a deletion right behind which something is put in, and a longer text at the end, in an
order of their own. -/
theorem applyAll_inTurn_adjacent :
    let edits : List TextEdit := [⟨"a", ⟨4, 2⟩, "xyz"⟩, ⟨"a", ⟨0, 0⟩, "<"⟩, ⟨"a", ⟨1, 3⟩, ""⟩]
    (∀ a ∈ edits, ∀ b ∈ edits, a.uri = b.uri) ∧
      (edits.Pairwise fun a b => a.span.start ≠ b.span.start) ∧
      (∀ e ∈ edits, e.span.start + e.span.len ≤ maxOffset) ∧
      applyAll "abcdef" edits = .ok "<axyz" ∧ inTurn "abcdef" (falling edits) = .ok "<axyz" ∧
      applyAll "abcdef" edits.reverse = .ok "<axyz" := by
  intro edits
  have document : ∀ a ∈ edits, ∀ b ∈ edits, a.uri = b.uri := by decide
  have starts : edits.Pairwise fun a b => a.span.start ≠ b.span.start := by decide
  have fits : ∀ e ∈ edits, e.span.start + e.span.len ≤ maxOffset := by decide
  obtain ⟨-, turns, reordered⟩ := applyAll_inTurn document starts fits "abcdef"
  have sorting : sort edits = [⟨"a", ⟨0, 0⟩, "<"⟩, ⟨"a", ⟨1, 3⟩, ""⟩, ⟨"a", ⟨4, 2⟩, "xyz"⟩] :=
    sort_eq (by decide) (by decide)
  have applied : applyAll "abcdef" edits = .ok "<axyz" := by
    rw [applyAll, sorting]
    rfl
  exact ⟨document, starts, fits, applied, turns _ applied,
    (reordered _ (List.reverse_perm _)).trans applied⟩

end TextEdit

end AvroIdl
