import AvroIdl.Proofs.Symbol.Place
import Mathlib.Data.List.Sort

/-!
# Edits at leaves

Edits of one document can be carried out if they stand at different leaves, in any order: they are
sorted by their starts first, `TextEdit.sort_eq`. Where each edit gives the last part of a name a new
text, the text after the edits is spelled by the tokens with that part of their names:
`TextEdit.applyAll_renaming`.
-/

namespace AvroIdl

namespace TextEdit

theorem notAfter_iff {a b : TextEdit} :
    a.notAfter b = true ↔ a.uri < b.uri ∨ a.uri = b.uri ∧ a.span.start ≤ b.span.start := by
  unfold notAfter
  by_cases same : a.uri = b.uri
  · have none : ¬ a.uri < b.uri := by rw [same]; exact List.lt_irrefl _
    simp [same]
  · simp [same, Bytes.before]

theorem notAfter_trans (a b c : TextEdit) (ab : a.notAfter b = true) (bc : b.notAfter c = true) :
    a.notAfter c = true := by
  rw [notAfter_iff] at *
  rcases ab, bc with ⟨ab | ⟨uri, ab⟩, bc | ⟨uri', bc⟩⟩
  · exact .inl (List.lt_trans ab bc)
  · exact .inl (uri' ▸ ab)
  · exact .inl (uri ▸ bc)
  · exact .inr ⟨uri.trans uri', Nat.le_trans ab bc⟩

theorem notAfter_total (a b : TextEdit) : (a.notAfter b || b.notAfter a) = true := by
  rw [Bool.or_eq_true, notAfter_iff, notAfter_iff]
  by_cases same : a.uri = b.uri
  · exact (Nat.le_total a.span.start b.span.start).imp (fun le => .inr ⟨same, le⟩)
      fun le => .inr ⟨same.symm, le⟩
  · by_contra neither
    rw [not_or, not_or, not_or] at neither
    exact same (List.le_antisymm neither.2.1 neither.1.1)

/-- Edits of one document with different starts are sorted in one way. -/
theorem sort_eq {edits sorted : List TextEdit} (perm : edits.Perm sorted)
    (ordered : sorted.Pairwise fun a b => a.uri = b.uri ∧ a.span.start < b.span.start) :
    sort edits = sorted := by
  have starts : (sorted.map fun e => e.span.start).Nodup :=
    List.pairwise_map.mpr (ordered.imp fun h => Nat.ne_of_lt h.2)
  have sorting : (sort edits).Perm sorted := (List.mergeSort_perm ..).trans perm
  apply List.Perm.eq_of_pairwise _ (List.pairwise_mergeSort notAfter_trans notAfter_total edits) _
    sorting
  · intro a b ha hb ab ba
    have start : a.span.start = b.span.start := by
      rcases notAfter_iff.mp ab, notAfter_iff.mp ba with ⟨ab | ⟨uri, ab⟩, ba | ⟨uri', ba⟩⟩
      · exact absurd (List.lt_trans ab ba) (List.lt_irrefl _)
      · exact absurd (uri' ▸ ab) (List.lt_irrefl _)
      · exact absurd (uri ▸ ba) (List.lt_irrefl _)
      · exact Nat.le_antisymm ab ba
    exact List.inj_on_of_nodup_map starts (sorting.subset ha) hb start
  · exact ordered.imp fun h => notAfter_iff.mpr (.inr ⟨h.1, Nat.le_of_lt h.2⟩)

end TextEdit

open Token (textOf)
open Leaf (located)

namespace Leaf

/-- The edit that gives a leaf another last part of its name. -/
def rename (uri newName : Bytes) (l : Leaf) : TextEdit := ⟨uri, l.simpleNameSpan, newName⟩

/-- The token of a leaf, with another last part of its name if the leaf is picked. -/
def renamedIf (pick : Leaf → Bool) (newName : Bytes) (l : Leaf) : Token :=
  if pick l then l.token.renamed newName else l.token

variable {l : Leaf} {uri newName : Bytes}

/-- The last part of a name lies inside the leaf, and is not empty. -/
theorem span_inside (named : l.token.Named) :
    l.start ≤ l.simpleNameSpan.start ∧ 0 < l.simpleNameSpan.len ∧
      l.simpleNameSpan.start + l.simpleNameSpan.len ≤ l.start + l.text.length := by
  obtain ⟨front, back, text, some, span, -⟩ := named.split
  have whole := congrArg List.length text
  simp only [List.length_append] at whole
  have positive := List.length_pos_iff.mpr some
  rw [span l.start, Leaf.text]
  dsimp only
  omega

end Leaf

namespace TextEdit

variable {pick : Leaf → Bool} {uri newName : Bytes}

/-- What stands from an offset on after the edits at the leaves that are picked. The induction is on
the tokens that are still to come, and `before` is all that stands before them. -/
theorem applyFrom_renaming (uri newName : Bytes) {ts : List Token} (before : Bytes) {last : Nat}
    (le : last ≤ before.length) (small : (before ++ textOf ts).length ≤ maxOffset)
    (named : ∀ l ∈ located before.length ts, pick l = true → l.token.Named) :
    applyFrom (before ++ textOf ts) last
        (((located before.length ts).filter pick).map (Leaf.rename uri newName)) =
      .ok (before.drop last ++
        textOf ((located before.length ts).map (Leaf.renamedIf pick newName))) := by
  induction ts generalizing before last with
  | nil => simp [located, applyFrom, textOf]
  | cons t rest ih =>
    have size : (before ++ t.text).length = before.length + t.text.length := List.length_append
    have whole : before ++ textOf (t :: rest) = before ++ t.text ++ textOf rest := by
      rw [Token.textOf_cons, List.append_assoc]
    rw [whole] at small ⊢
    rw [located, List.map_cons, Token.textOf_cons, ← size]
    have others : ∀ l ∈ located (before ++ t.text).length rest, pick l = true → l.token.Named := by
      intro l mem
      rw [size] at mem
      exact named l (.tail _ mem)
    by_cases picked : pick ⟨before.length, t⟩ = true
    · obtain ⟨front, back, split⟩ := (named _ List.mem_cons_self picked).split
      have text := split.text
      have span := split.span before.length
      have renamed := split.renamed_eq newName
      generalize Name.simple (identText t.text) = simple at text span
      have length := congrArg List.length text
      simp only [List.length_append] at length small
      rw [List.filter_cons_of_pos picked, List.map_cons, Leaf.renamedIf, if_pos picked, renamed,
        applyFrom]
      simp only [Leaf.rename, span]
      have stop : Span.stop ⟨before.length + front.length, simple.length⟩ =
          before.length + front.length + simple.length := Span.stop_eq (by dsimp only; omega)
      rw [stop, if_neg (by simp only [Bool.or_eq_true, decide_eq_true_eq, List.length_append]; omega),
        ih _ (by rw [size]; omega) (by simp only [List.length_append]; omega) others]
      -- The text around the last part of the name stays.
      have first : Bytes.slice (before ++ t.text ++ textOf rest) last (before.length + front.length) =
          before.drop last ++ front := by
        have split : before ++ t.text ++ textOf rest =
            (before ++ front) ++ (simple ++ back ++ textOf rest) := by rw [text]; simp
        rw [Bytes.slice, split, List.take_left' (by simp), List.drop_append_of_le_length le]
      have after : (before ++ t.text).drop (before.length + front.length + simple.length) = back := by
        have split : before ++ t.text = (before ++ front ++ simple) ++ back := by rw [text]; simp
        rw [split, List.drop_left' (by simp only [List.length_append])]
      rw [first, after]
      simp [bind, Except.bind, pure, Except.pure]
    · rw [List.filter_cons_of_neg picked, Leaf.renamedIf, if_neg picked,
        ih _ (by rw [size]; omega) small others, List.drop_append_of_le_length le]
      simp

/-- Edits at the leaves that are picked stand apart, in the order of the leaves. -/
theorem pairwise_renaming {ts : List Token} (small : (textOf ts).length ≤ maxOffset)
    (named : ∀ l ∈ located 0 ts, pick l = true → l.token.Named) :
    (((located 0 ts).filter pick).map (Leaf.rename uri newName)).Pairwise fun a b =>
      a.uri = b.uri ∧ a.span.start < a.span.stop ∧ a.span.stop ≤ b.span.start := by
  have small_stop {l : Leaf} (mem : l ∈ located 0 ts) (picked : pick l = true) :
      l.simpleNameSpan.stop = l.simpleNameSpan.start + l.simpleNameSpan.len := by
    apply Span.stop_eq
    obtain ⟨before, after, rfl, place⟩ := Leaf.split_of_mem mem
    have inside := Leaf.span_inside (named l mem picked)
    simp only [Token.textOf_append, Token.textOf_cons, List.length_append] at small
    rw [Leaf.text] at inside
    omega
  rw [List.pairwise_map]
  refine ((Leaf.pairwise_located 0 ts).filter pick).imp_of_mem fun {a b} ha hb apart => ?_
  obtain ⟨ha, pa⟩ := List.mem_filter.mp ha
  obtain ⟨hb, pb⟩ := List.mem_filter.mp hb
  have first := Leaf.span_inside (named a ha pa)
  have second := Leaf.span_inside (named b hb pb)
  refine ⟨rfl, ?_⟩
  simp only [Leaf.rename, small_stop ha pa]
  omega

/-- Edits at the leaves that are picked give their names another last part. -/
theorem applyAll_renaming {text : Bytes} {edits : List TextEdit} (small : text.length ≤ maxOffset)
    (named : ∀ l ∈ located 0 (Token.all text), pick l = true → l.token.Named)
    (perm : edits.Perm (((located 0 (Token.all text)).filter pick).map (Leaf.rename uri newName))) :
    applyAll text edits =
      .ok (textOf ((located 0 (Token.all text)).map (Leaf.renamedIf pick newName))) := by
  have ordered : (((located 0 (Token.all text)).filter pick).map (Leaf.rename uri newName)).Pairwise
      fun a b => a.uri = b.uri ∧ a.span.start < b.span.start := by
    refine (pairwise_renaming (by rwa [Token.text_all]) named).imp fun h => ⟨h.1, ?_⟩
    omega
  have applied := applyFrom_renaming uri newName [] (Nat.le_refl 0)
    (by simpa [Token.text_all] using small) named
  rw [applyAll, sort_eq perm ordered]
  simpa [Token.text_all] using applied

end TextEdit

end AvroIdl
