import AvroIdl.Token.Lexer
import Mathlib.Tactic.SplitIfs

/-!
# The tokens of a text

* `Token.text_all`: the tokens of a text are a partition of it;
* `Token.all_drop`: reading can start again after every token;
* `Token.kind_ne_eof`: no token of a text is the one at its end;
* `Token.error_eq_none_iff`: malformed tokens carry a cause, and no others do.
-/

namespace AvroIdl

namespace Token

/-- The text of tokens that follow each other. -/
def textOf (ts : List Token) : Bytes := (ts.map Token.text).flatten

@[simp] theorem textOf_nil : textOf [] = [] := rfl

@[simp] theorem textOf_cons (t : Token) (rest : List Token) :
    textOf (t :: rest) = t.text ++ textOf rest := rfl

@[simp] theorem textOf_append (as bs : List Token) : textOf (as ++ bs) = textOf as ++ textOf bs := by
  simp [textOf]

theorem all_eq_cons {s rest : Bytes} {t : Token} (h : next? s = some (t, rest)) :
    all s = t :: all rest := by
  rw [all]
  split
  next none => rw [h] at none; contradiction
  next found =>
    rw [h] at found
    cases found
    rfl

@[simp] theorem all_nil : all [] = [] := by
  rw [all]
  rfl

/-- The first token and the text after it are the whole text. -/
theorem next?_text {s rest : Bytes} {t : Token} (h : next? s = some (t, rest)) :
    t.text ++ rest = s ∧ t.text ≠ [] := by
  cases s with
  | nil => simp [next?] at h
  | cons c r =>
    simp only [next?, Option.some.injEq, Prod.mk.injEq] at h
    obtain ⟨rfl, rfl⟩ := h
    simp

theorem next?_eq_none {s : Bytes} (h : next? s = none) : s = [] := by
  cases s with
  | nil => rfl
  | cons => simp [next?] at h

/-- The tokens of a text are a partition of it. -/
theorem text_all (s : Bytes) : textOf (all s) = s := by
  fun_induction all s with
  | case1 s none => simp [next?_eq_none none]
  | case2 s t rest found ih => rw [textOf_cons, ih, (next?_text found).1]

/-- Reading can start again after every token. -/
theorem all_drop {s : Bytes} {as bs : List Token} (h : all s = as ++ bs) :
    all (s.drop (textOf as).length) = bs := by
  induction as generalizing s with
  | nil => simpa using h
  | cons t rest ih =>
    cases found : next? s with
    | none =>
      rw [next?_eq_none found] at h
      simp at h
    | some p =>
      obtain ⟨t', s'⟩ := p
      rw [all_eq_cons found] at h
      obtain ⟨rfl, more⟩ := List.cons.inj h
      obtain ⟨whole, _⟩ := next?_text found
      rw [textOf_cons, List.length_append, ← List.drop_drop, ← whole, List.drop_left]
      exact ih more

/-- Only whole tokens make up the tokens of a text. -/
theorem all_append {s s' : Bytes} {as : List Token} (h : all s = as ++ all s') :
    s = textOf as ++ s' := by
  rw [← text_all s, h, textOf_append, text_all]

end Token

/-- The class of a piece of text that is there, which says why if the text is malformed. -/
def Scan.Proper (s : Scan) : Prop := s.kind ≠ .eof ∧ (s.kind = .error ↔ s.error.isSome)

namespace Scan

theorem proper_malformed (cause : LexError) (extra : Nat) : (malformed cause extra).Proper := by
  simp [Proper, malformed]

theorem proper_string (taken : Nat) (escaped : Bool) (s : Bytes) :
    (string taken escaped s).Proper := by
  fun_induction string taken escaped s with
  | case1 | case2 => exact proper_malformed ..
  | case3 _ _ _ _ ih | case4 _ _ _ _ _ ih | case6 _ _ _ _ _ _ _ _ ih => exact ih
  | case5 => simp [Proper]

theorem proper_slash (s : Bytes) : (slash s).Proper := by
  fun_cases slash s with
  | case2 => simp [Proper]
  | case3 =>
    dsimp only [Proper]
    split <;> simp
  | _ => exact proper_malformed ..

theorem proper_quotedIdent (s : Bytes) : (quotedIdent s).Proper := by
  unfold quotedIdent
  dsimp only
  split_ifs
  · simp [Proper]
  · exact proper_malformed ..

theorem decimalNumber_kind (s : Bytes) :
    (decimalNumber s).1 = .intLit ∨ (decimalNumber s).1 = .floatLit := by
  simp only [decimalNumber]
  split_ifs <;> simp

theorem proper_number (sign : Nat) (s : Bytes) : (number sign s).Proper := by
  have unsigned : (unsignedNumber s).1 ≠ .eof := by
    have decimal := decimalNumber_kind s
    fun_cases unsignedNumber s with
    | case1 =>
      dsimp only
      split_ifs <;> simp
    | case2 | case3 => rcases decimal with h | h <;> simp [h]
  unfold number
  dsimp only
  split_ifs with invalid
  · exact proper_malformed ..
  · simp only [Bool.or_eq_true, decide_eq_true_eq, not_or] at invalid
    simp [Proper, unsigned, invalid.1]

theorem proper_minus (s : Bytes) : (minus s).Proper := by
  unfold minus
  split_ifs
  · simp [Proper]
  · exact proper_number 1 s
  · exact proper_malformed ..

theorem proper_other (c : UInt8) (rest : Bytes) : (other c rest).Proper := by
  unfold other
  repeat' split
  all_goals first | exact proper_malformed .. | simp [Proper]

theorem punctuation_kind {c : UInt8} {kind : TokenKind} (h : punctuation? c = some kind) :
    kind ≠ .eof ∧ kind ≠ .error ∧ kind ≠ .ident ∧ kind ≠ .keyword := by
  unfold punctuation? at h
  split at h <;> simp_all
  all_goals
    subst h
    simp

theorem proper_first (c : UInt8) (rest : Bytes) : (first c rest).Proper := by
  fun_cases first c rest with
  | case4 => exact proper_slash rest
  | case5 => exact proper_string 0 false rest
  | case6 => exact proper_quotedIdent rest
  | case7 _ _ _ _ _ _ kind found => simp [Proper, punctuation_kind found]
  | case8 => exact proper_minus rest
  | case9 => exact proper_number 0 (c :: rest)
  | case10 =>
    unfold wordKind
    split_ifs <;> simp [Proper]
  | case11 => exact proper_other c rest
  | _ => simp [Proper]

end Scan

namespace Token

theorem proper_of_mem {s : Bytes} {t : Token} (h : t ∈ all s) :
    t.kind ≠ .eof ∧ (t.kind = .error ↔ t.error.isSome) := by
  fun_induction all s with
  | case1 s none => simp at h
  | case2 s t' rest found ih =>
    rcases List.mem_cons.mp h with rfl | h
    · cases s with
      | nil => simp [next?] at found
      | cons c r =>
        simp only [next?, Option.some.injEq, Prod.mk.injEq] at found
        obtain ⟨rfl, rfl⟩ := found
        exact Scan.proper_first c r
    · exact ih h

/-- No token of a text is the one at its end. -/
theorem kind_ne_eof {s : Bytes} {t : Token} (h : t ∈ all s) : t.kind ≠ .eof := (proper_of_mem h).1

/-- Malformed tokens carry a cause, and no others do. -/
theorem error_eq_none_iff {s : Bytes} {t : Token} (h : t ∈ all s) :
    t.error = none ↔ t.kind ≠ .error := by
  rw [Ne, (proper_of_mem h).2, Option.not_isSome_iff_eq_none]

end Token

end AvroIdl
