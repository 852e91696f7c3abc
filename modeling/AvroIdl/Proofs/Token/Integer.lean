import AvroIdl.Proofs.Token.Renaming
import AvroIdl.Text.Integer
import Mathlib.Data.List.Induction
import Mathlib.Data.Nat.Digits.Defs

/-!
# Integer literals

What an integer literal denotes: `IntegerForm.Denotes` gives the forms of literals and the integers
that they stand for. Every integer token of a text has one of the forms,
`Token.denotes_of_next`. `Bytes.integer?` reads plain decimal literals only, and those it reads
right: `IntegerForm.Denotes.integer?_eq`.
-/

namespace AvroIdl

/-- The number that digits spell in a base, the most significant digit first. -/
def numeral (base : Nat) (digits : Bytes) : Nat :=
  Nat.ofDigits base (digits.reverse.map fun c => (hexValue? c).getD 0)

theorem numeral_concat (base : Nat) (digits : Bytes) (c : UInt8) :
    numeral base (digits ++ [c]) = (hexValue? c).getD 0 + base * numeral base digits := by
  rw [numeral, List.reverse_append, List.reverse_singleton, List.singleton_append, List.map_cons,
    Nat.ofDigits_cons]
  rfl

/-- How an integer literal is written. -/
inductive IntegerForm where
  | decimal
  /-- Decimal, with a letter after it that names a type. -/
  | suffixed (letter : UInt8)
  | hexadecimal
  deriving DecidableEq, Repr

namespace IntegerForm

/-- A literal of a form without a sign, and the number that it spells. -/
inductive Spells : IntegerForm → Bytes → Nat → Prop
  | decimal {digits : Bytes} (some : digits ≠ []) (all : ∀ c ∈ digits, isDigit c = true) :
      Spells .decimal digits (numeral 10 digits)
  | suffixed {digits : Bytes} {letter : UInt8} (some : digits ≠ [])
      (all : ∀ c ∈ digits, isDigit c = true) (suffix : Scan.isNumberSuffix letter = true) :
      Spells (.suffixed letter) (digits ++ [letter]) (numeral 10 digits)
  | hexadecimal {digits : Bytes} {mark : UInt8} (marked : mark = 0x78 ∨ mark = 0x58)
      (some : digits ≠ []) (all : ∀ c ∈ digits, isHexDigit c = true) :
      Spells .hexadecimal (0x30 :: mark :: digits) (numeral 16 digits)

/-- A literal of a form, and the integer that it denotes. -/
inductive Denotes (form : IntegerForm) : Bytes → Int → Prop
  | unsigned {text : Bytes} {n : Nat} (spells : form.Spells text n) : Denotes form text n
  | negative {text : Bytes} {n : Nat} (spells : form.Spells text n) :
      Denotes form (0x2d :: text) (-n)

variable {form : IntegerForm} {text : Bytes}

theorem Denotes.ne_nil {n : Int} (h : form.Denotes text n) : text ≠ [] := by
  cases h with
  | unsigned spells => cases spells <;> simp_all
  | negative spells => simp

/-! ## Reading decimal digits -/

/-- Decimal digits are read as the number that they spell. -/
theorem digits?_eq {digits : Bytes} (some : digits ≠ []) (all : ∀ c ∈ digits, isDigit c = true) :
    Bytes.digits? digits = .some (numeral 10 digits) := by
  have value : digits.foldl (fun n d => n * 10 + (d.toNat - 0x30)) 0 = numeral 10 digits := by
    clear some
    induction digits using List.reverseRecOn with
    | nil => rfl
    | append_singleton before c ih =>
      have digit : isDigit c = true := all c (by simp)
      rw [List.foldl_append, ih fun d mem => all d (List.mem_append_left _ mem), numeral_concat,
        hexValue?, if_pos digit]
      simp only [List.foldl_cons, List.foldl_nil, Option.getD_some]
      omega
  have given : ¬ (digits.isEmpty || !digits.all isDigit) = true := by simpa [some] using all
  rw [Bytes.digits?, if_neg given, value]

theorem digits?_eq_none {c : UInt8} (mem : c ∈ text) (other : isDigit c = false) :
    Bytes.digits? text = none := by
  have bad : text.all isDigit = false := by
    rw [List.all_eq_false]
    exact ⟨c, mem, by simp [other]⟩
  rw [Bytes.digits?, if_pos (by simp [bad])]

theorem Spells.digits?_eq {n : Nat} (h : form.Spells text n) :
    Bytes.digits? text = if form = .decimal then some n else none := by
  cases h with
  | decimal some all => exact IntegerForm.digits?_eq some all
  | @suffixed digits letter some all suffix =>
    have letters : ∀ c, Scan.isNumberSuffix c = true → isDigit c = false :=
      forall_byte (by decide +kernel)
    exact digits?_eq_none (c := letter) (by simp) (letters letter suffix)
  | @hexadecimal digits mark marked some all =>
    refine digits?_eq_none (c := mark) (by simp) ?_
    rcases marked with rfl | rfl <;> decide

/-- Every literal begins with a decimal digit. -/
theorem Spells.head {n : Nat} (h : form.Spells text n) :
    ∃ c rest, text = c :: rest ∧ isDigit c = true := by
  have first {digits : Bytes} (some : digits ≠ []) (all : ∀ c ∈ digits, isDigit c = true) :
      ∃ c rest, digits = c :: rest ∧ isDigit c = true := by
    obtain ⟨c, rest, rfl⟩ := List.exists_cons_of_ne_nil some
    exact ⟨c, rest, rfl, all c List.mem_cons_self⟩
  cases h with
  | decimal some all => exact first some all
  | suffixed some all suffix =>
    obtain ⟨c, rest, rfl, digit⟩ := first some all
    exact ⟨c, _, rfl, digit⟩
  | hexadecimal marked some all => exact ⟨0x30, _, rfl, rfl⟩

/-- Only plain decimal literals are read, as what they denote. -/
theorem Denotes.integer?_eq {n : Int} (h : form.Denotes text n) :
    Bytes.integer? text = if form = .decimal then some n else none := by
  cases h with
  | negative spells =>
    rw [Bytes.integer?, Bytes.signed?, if_pos rfl, spells.digits?_eq]
    split_ifs <;> rfl
  | unsigned spells =>
    obtain ⟨c, rest, rfl, digit⟩ := spells.head
    have signs : ∀ c, isDigit c = true → c ≠ 0x2d ∧ c ≠ 0x2b := forall_byte (by decide +kernel)
    rw [Bytes.integer?, Bytes.signed?, if_neg (signs c digit).1, if_neg (signs c digit).2,
      spells.digits?_eq]
    split_ifs <;> rfl

end IntegerForm

theorem fitsSigned_iff {bits : Nat} {n : Int} :
    fitsSigned bits n = true ↔ -2 ^ (bits - 1) ≤ n ∧ n < 2 ^ (bits - 1) := by
  have half : Int.ofNat (Nat.pow 2 (bits - 1)) = 2 ^ (bits - 1) := by simp
  simp only [fitsSigned, half, Bool.and_eq_true, decide_eq_true_eq, and_comm]

/-! ## The integers among tokens -/

namespace Scan

theorem take_digitCount (s : Bytes) : s.take (digitCount s) = s.takeWhile isDigit :=
  (List.prefix_iff_eq_take.mp (s.takeWhile_prefix _)).symm

/-- What is read as a decimal integer is one, with a letter after it or without. -/
theorem spells_of_decimalNumber {s : Bytes} (digit : s.head?.any isDigit = true)
    (integer : (decimalNumber s).1 = .intLit) :
    ∃ form n, IntegerForm.Spells form (s.take (decimalNumber s).2) n := by
  have some : s.takeWhile isDigit ≠ [] := by
    intro none
    have zero : digitCount s = 0 := by rw [digitCount, none, List.length_nil]
    rw [digitCount_eq_zero_iff.mp zero] at digit
    contradiction
  have all : ∀ c ∈ s.takeWhile isDigit, isDigit c = true := List.all_eq_true.mp List.all_takeWhile
  simp only [decimalNumber] at integer ⊢
  split_ifs at integer with whole
  rw [Bool.and_eq_true, decide_eq_true_eq, decide_eq_true_eq] at whole
  rw [whole.2, whole.1, Nat.add_zero, List.take_add, take_digitCount]
  cases after : s.drop (digitCount s) with
  | nil => exact ⟨_, _, by simpa using .decimal some all⟩
  | cons c rest =>
    rw [suffixLength]
    split_ifs with suffix
    · rw [Bool.and_eq_true] at suffix
      exact ⟨_, _, .suffixed some all suffix.1⟩
    · exact ⟨_, _, by simpa using .decimal some all⟩

/-- What is read as an unsigned integer is one. -/
theorem spells_of_unsignedNumber {s : Bytes} (digit : s.head?.any isDigit = true)
    (integer : (unsignedNumber s).1 = .intLit) :
    ∃ form n, IntegerForm.Spells form (s.take (unsignedNumber s).2) n := by
  revert integer
  fun_cases unsignedNumber s with
  | case1 z x rest marked digits =>
    intro integer
    rw [Bool.and_eq_true, Bool.or_eq_true, decide_eq_true_eq, decide_eq_true_eq,
      decide_eq_true_eq] at marked
    obtain ⟨rfl, mark⟩ := marked
    dsimp only at integer ⊢
    split_ifs at integer with none
    have some : rest.takeWhile isHexDigit ≠ [] := fun nil => none (by simp [digits, nil])
    have taken : rest.take digits = rest.takeWhile isHexDigit :=
      (List.prefix_iff_eq_take.mp (rest.takeWhile_prefix _)).symm
    rw [Nat.add_comm, List.take_succ_cons, List.take_succ_cons, taken]
    exact ⟨_, _, .hexadecimal mark some (List.all_eq_true.mp List.all_takeWhile)⟩
  | case2 | case3 => exact spells_of_decimalNumber digit

/-- A number that is an integer ends where its digits or the letter after them do. -/
theorem number_of_intLit {sign : Nat} {s : Bytes} (integer : (number sign s).kind = .intLit) :
    (unsignedNumber s).1 = .intLit ∧ (number sign s).extra = sign + (unsignedNumber s).2 - 1 := by
  simp only [number] at integer ⊢
  split_ifs at integer ⊢ with bad
  · contradiction
  · exact ⟨integer, rfl⟩

/-- Integers begin with a digit, or with a minus sign before one. -/
theorem first_of_intLit {c : UInt8} {rest : Bytes} (integer : (first c rest).kind = .intLit) :
    (isDigit c = true ∧ first c rest = number 0 (c :: rest)) ∨
      (c = 0x2d ∧ rest.head?.any isDigit = true ∧ first c rest = number 1 rest) := by
  revert integer
  fun_cases first c rest with
  | case4 =>
    intro integer
    rcases slash_kind rest with h | h <;> simp [integer, TokenKind.isTrivia] at h
  | case5 =>
    intro integer
    rcases string_kind 0 false rest with h | h <;> simp [h] at integer
  | case6 =>
    intro integer
    simp only [quotedIdent, malformed] at integer
    split_ifs at integer
  | case7 _ _ _ _ _ _ kind found =>
    intro integer
    obtain rfl : kind = .intLit := integer
    unfold punctuation? at found
    split at found <;> simp at found
  | case8 _ _ _ _ _ _ sign =>
    intro integer
    rw [minus_eq] at integer ⊢
    split_ifs at integer ⊢ with infinite digit
    · exact .inr ⟨sign, digit, rfl⟩
    · contradiction
  | case9 _ _ _ _ _ _ _ digit => exact fun _ => .inl ⟨digit, rfl⟩
  | case10 =>
    intro integer
    simp only [wordKind] at integer
    split_ifs at integer
  | case11 =>
    intro integer
    rcases other_kind c rest with h | h <;> simp [h] at integer
  | _ => simp

end Scan

/-- Every integer that is read from a text denotes one. -/
theorem Token.denotes_of_next {s rest : Bytes} {t : Token} (found : next? s = some (t, rest))
    (integer : t.kind = .intLit) : ∃ form n, IntegerForm.Denotes form t.text n := by
  cases s with
  | nil => contradiction
  | cons c after =>
    rw [next?, Option.some.injEq, Prod.mk.injEq] at found
    obtain ⟨rfl, -⟩ := found
    dsimp only at integer ⊢
    rcases Scan.first_of_intLit integer with ⟨digit, read⟩ | ⟨rfl, digit, read⟩
    · rw [read] at integer ⊢
      obtain ⟨unsigned, extra⟩ := Scan.number_of_intLit integer
      have first : (c :: after).head?.any isDigit = true := digit
      obtain ⟨form, n, spells⟩ := Scan.spells_of_unsignedNumber first unsigned
      have some := Scan.one_le_unsignedNumber first
      refine ⟨form, n, .unsigned ?_⟩
      rwa [extra, ← List.take_succ_cons, Nat.zero_add, Nat.sub_add_cancel some]
    · rw [read] at integer ⊢
      obtain ⟨unsigned, extra⟩ := Scan.number_of_intLit integer
      obtain ⟨form, n, spells⟩ := Scan.spells_of_unsignedNumber digit unsigned
      refine ⟨form, -n, .negative ?_⟩
      rwa [extra, Nat.add_sub_cancel_left]

end AvroIdl
