import AvroIdl.Proofs.Token.Partition

/-!
# What a token depends on

A token depends on the text after it, but not on much of it: the token that follows says enough. So
the tokens in front of a place stay when the text from there on is changed and still begins with the
same token, `Token.all_replace`. There is one exception. A dot is a token of its own, and whether it
joins the word or number before it depends on the byte after it.
-/

namespace AvroIdl

/-- Whether a dot after a token of this kind can become a part of it. -/
def TokenKind.joinsDot : TokenKind → Bool
  | ident | keyword | boolLit | intLit | floatLit => true
  | _ => false

/-- What holds of all numbers up to 255 holds of all bytes. -/
theorem forall_byte {p : UInt8 → Prop} (h : ∀ n : Fin 256, p (.ofFin n)) (c : UInt8) : p c := by
  simpa using h c.toFin

theorem isIdentPart_of_isNumberSuffix :
    ∀ c, Scan.isNumberSuffix c = true → isIdentPart c = true :=
  forall_byte (by decide +kernel)

theorem isIdentPart_of_isHexDigit : ∀ c, isHexDigit c = true → isIdentPart c = true :=
  forall_byte (by decide +kernel)

theorem isIdentPart_of_isDigit {c : UInt8} (h : isDigit c = true) : isIdentPart c = true := by
  simp [isIdentPart, h]

namespace Scan

variable {p : UInt8 → Bool} {u z z' : Bytes}

/-! ## Bytes of one class -/

theorem takeWhile_congr (size : ((u ++ z).takeWhile p).length ≤ u.length)
    (head : z.head? = z'.head?) : (u ++ z').takeWhile p = (u ++ z).takeWhile p := by
  rw [List.takeWhile_append] at size ⊢
  rw [List.takeWhile_append]
  split_ifs at size ⊢ with full
  · have none : z.takeWhile p = [] := by
      rw [List.length_append] at size
      exact List.length_eq_zero_iff.mp (by omega)
    have none' : z'.takeWhile p = [] := by
      cases z <;> cases z' <;> simp_all [List.takeWhile_cons]
    rw [none, none']
  · rfl

theorem stop_of_takeWhile (size : ((u ++ z).takeWhile p).length = u.length) :
    z.head?.any p = false := by
  rw [List.takeWhile_append] at size
  split_ifs at size with full
  · cases z with
    | nil => rfl
    | cons c rest =>
      rw [List.length_append, List.takeWhile_cons] at size
      split_ifs at size with hc
      · simp at size
      · simpa using hc
  · exact absurd size full

theorem takeWhile_stop (stop : z.head?.any p = false) :
    (u ++ z).takeWhile p = u.takeWhile p := by
  rw [List.takeWhile_append]
  split_ifs with full
  · have none : z.takeWhile p = [] := by cases z <;> simp_all
    rw [none, List.append_nil, (u.takeWhile_prefix p).eq_of_length full]
  · rfl

theorem head?_append (u : Bytes) (head : z.head? = z'.head?) :
    (u ++ z).head? = (u ++ z').head? := by
  cases u <;> simp [head]

/-! ## Comments and strings -/

theorem two_le_commentEnd {s : Bytes} {n : Nat} (h : commentEnd? s = some n) : 2 ≤ n := by
  fun_induction commentEnd? s generalizing n with
  | case1 => contradiction
  | case2 => simp_all
  | case3 c rest _ ih =>
    obtain ⟨k, found, rfl⟩ := Option.map_eq_some_iff.mp h
    have := ih found
    omega

theorem commentEnd?_congr (h : commentEnd? (u ++ z) = some u.length) :
    commentEnd? (u ++ z') = some u.length := by
  induction u with
  | nil =>
    have := two_le_commentEnd h
    simp at this
  | cons c rest ih =>
    cases rest with
    | nil =>
      have := two_le_commentEnd h
      simp at this
    | cons d more =>
      rw [List.cons_append, List.cons_append, commentEnd?, List.head?_cons] at h ⊢
      split_ifs at h ⊢ with ends
      · exact h
      · obtain ⟨k, found, hk⟩ := Option.map_eq_some_iff.mp h
        obtain rfl : k = (d :: more).length := by simpa using hk
        rw [← List.cons_append, ih found]
        rfl

theorem isDoc_congr (h : commentEnd? (u ++ z) = some u.length) : isDoc (u ++ z') = isDoc (u ++ z) := by
  have two := two_le_commentEnd h
  rcases u with _ | ⟨a, _ | ⟨b, _ | ⟨c, rest⟩⟩⟩
  · simp at two
  · simp at two
  · -- Two bytes end the comment, so they are a star and a slash.
    have ends : b = 0x2f := by
      rw [show [a, b] ++ z = a :: b :: z from rfl, commentEnd?] at h
      split_ifs at h with star
      · simp only [List.head?_cons, Option.some.injEq, Bool.and_eq_true, decide_eq_true_eq] at star
        exact star.2
      · obtain ⟨k, found, hk⟩ := Option.map_eq_some_iff.mp h
        have := two_le_commentEnd found
        simp only [List.length_cons, List.length_nil] at hk
        omega
    subst ends
    cases z <;> cases z' <;> simp [isDoc]
  · simp [isDoc]

theorem slash_congr (size : (slash (u ++ z)).extra = u.length) (head : z.head? = z'.head?)
    (more : z ≠ []) : slash (u ++ z') = slash (u ++ z) := by
  cases u with
  | nil =>
    obtain ⟨c, rest, rfl⟩ := List.exists_cons_of_ne_nil more
    obtain ⟨rest', rfl⟩ := List.head?_eq_some_iff.mp (by simpa using head.symm : z'.head? = some c)
    simp only [List.nil_append, slash, List.length_nil] at size ⊢
    by_cases line : c = 0x2f
    · simp [line] at size
    · by_cases block : c = 0x2a
      · cases found : commentEnd? rest <;> simp [block, found, malformed] at size
      · simp [line, block]
  | cons c rest =>
    simp only [List.cons_append, slash, List.length_cons] at size ⊢
    by_cases line : c = 0x2f
    · simp only [if_pos line] at size ⊢
      rw [takeWhile_congr (by omega) head]
    · by_cases block : c = 0x2a
      · cases found : commentEnd? (rest ++ z) with
        | none =>
          have := List.length_pos_iff.mpr more
          simp [block, found, malformed] at size
          omega
        | some n =>
          obtain rfl : n = rest.length := by
            simp [block, found] at size
            omega
          have doc : isDoc (rest ++ z') = isDoc (rest ++ z) := isDoc_congr found
          simp [block, commentEnd?_congr found, doc]
      · simp [line, block, malformed] at size

theorem le_string (taken : Nat) (escaped : Bool) (s : Bytes) :
    taken ≤ (string taken escaped s).extra := by
  fun_induction string taken escaped s with
  | case1 | case2 => simp [malformed]
  | case3 | case4 | case6 => omega
  | case5 => simp

theorem string_congr {taken : Nat} {escaped : Bool}
    (size : (string taken escaped (u ++ z)).extra = taken + u.length) (head : z.head? = z'.head?) :
    string taken escaped (u ++ z') = string taken escaped (u ++ z) := by
  induction u generalizing taken escaped with
  | nil =>
    cases z with
    | nil =>
      obtain rfl : z' = [] := List.head?_eq_none_iff.mp (by simpa using head.symm)
      rfl
    | cons c rest =>
      obtain ⟨rest', rfl⟩ := List.head?_eq_some_iff.mp (by simpa using head.symm : z'.head? = some c)
      have more := le_string (taken + 1)
      simp only [List.nil_append, string, List.length_nil] at size ⊢
      split_ifs at size ⊢
      · rfl
      · have := more false rest
        omega
      · have := more true rest
        omega
      · simp at size
      · have := more false rest
        omega
  | cons c rest ih =>
    simp only [List.cons_append, string, List.length_cons] at size ⊢
    split_ifs at size ⊢ <;> first | rfl | exact ih (by omega)

theorem quotedIdent_congr (size : (quotedIdent (u ++ z)).extra = u.length)
    (head : z.head? = z'.head?) : quotedIdent (u ++ z') = quotedIdent (u ++ z) := by
  have small : ((u ++ z).takeWhile isIdentPart).length ≤ u.length := by
    simp only [quotedIdent] at size
    split_ifs at size <;> simp [malformed] at size <;> omega
  have first : (u ++ z').headD 0 = (u ++ z).headD 0 := by
    rw [List.headD_eq_head?_getD, List.headD_eq_head?_getD, head?_append u head]
  have next : ((u ++ z').drop ((u ++ z).takeWhile isIdentPart).length).head? =
      ((u ++ z).drop ((u ++ z).takeWhile isIdentPart).length).head? := by
    rw [List.drop_append_of_le_length small, List.drop_append_of_le_length small,
      head?_append _ head]
  simp only [quotedIdent, takeWhile_congr small head, first, next]

/-! ## Words -/

theorem identLength_congr (size : identLength (u ++ z) = u.length) (head : z.head? = z'.head?)
    (second : z.head? = some 0x2e ∨ z.head? = some 0x2d → z.tail.head? = z'.tail.head?) :
    identLength (u ++ z') = identLength (u ++ z) := by
  induction u with
  | nil =>
    cases z with
    | nil =>
      obtain rfl : z' = [] := List.head?_eq_none_iff.mp (by simpa using head.symm)
      rfl
    | cons c rest =>
      obtain ⟨rest', rfl⟩ := List.head?_eq_some_iff.mp (by simpa using head.symm : z'.head? = some c)
      simp only [List.nil_append, identLength, List.length_nil] at size ⊢
      simp only [List.head?_cons, Option.some.injEq, List.tail_cons] at second
      split_ifs at size with part joins
      · omega
      · omega
      · have : ¬ ((c = 0x2e || c = 0x2d) && rest'.head?.any isIdentStart) = true := by
          by_cases join : c = 0x2e ∨ c = 0x2d
          · rwa [← second join]
          · simp_all
        rw [if_neg part, if_neg this]
        simp [part, joins]
  | cons c rest ih =>
    simp only [List.cons_append, identLength, List.length_cons, head?_append rest head] at size ⊢
    split_ifs at size ⊢
    · rw [ih (by omega)]
    · rw [ih (by omega)]

/-! ## Numbers -/

theorem not_digit_of_stop (stop : z.head?.any isIdentPart = false) : z.head?.any isDigit = false := by
  cases z with
  | nil => rfl
  | cons c rest =>
    simp only [List.head?_cons, Option.any_some] at stop ⊢
    cases digit : isDigit c with
    | false => rfl
    | true => rw [isIdentPart_of_isDigit digit] at stop; contradiction

theorem digitCount_stop (stop : z.head?.any isIdentPart = false) :
    digitCount (u ++ z) = digitCount u := by
  rw [digitCount, takeWhile_stop (not_digit_of_stop stop), digitCount]

theorem identLength_le (s : Bytes) : identLength s ≤ s.length := by
  fun_induction identLength s with
  | case1 => exact Nat.le_refl _
  | case2 c rest _ ih | case3 c rest _ _ ih =>
    rw [List.length_cons]
    omega
  | case4 => exact Nat.zero_le _

theorem digitCount_le (s : Bytes) : digitCount s ≤ s.length := (s.takeWhile_prefix _).length_le

theorem digitCount_eq_zero_iff {s : Bytes} : digitCount s = 0 ↔ s.head?.any isDigit = false := by
  cases s with
  | nil => simp [digitCount]
  | cons c rest =>
    rw [digitCount, List.takeWhile_cons]
    cases h : isDigit c <;> simp [h]

/-- The texts `z` and `z'` begin alike for a number that ends before them. -/
structure EndsNumber (z z' : Bytes) : Prop where
  stop : z.head?.any isIdentPart = false
  head : z.head? = z'.head?
  sign : z.head? = some 0x2d ∨ z.head? = some 0x2b → z.tail.head? = z'.tail.head?

theorem EndsNumber.stop' (h : EndsNumber z z') : z'.head?.any isIdentPart = false :=
  h.head ▸ h.stop

theorem fractionLength_congr (h : EndsNumber z z') (size : fractionLength (u ++ z) ≤ u.length)
    (dot : u = [] → z.head? = some 0x2e → z.tail.head?.any isDigit = z'.tail.head?.any isDigit) :
    fractionLength (u ++ z') = fractionLength (u ++ z) := by
  cases u with
  | nil =>
    cases z with
    | nil =>
      obtain rfl : z' = [] := List.head?_eq_none_iff.mp (by simpa using h.head.symm)
      rfl
    | cons c rest =>
      obtain ⟨rest', rfl⟩ := List.head?_eq_some_iff.mp
        (by simpa using h.head.symm : z'.head? = some c)
      simp only [List.nil_append, fractionLength, List.length_nil] at size ⊢
      by_cases hc : c = 0x2e
      · have same : rest.head?.any isDigit = rest'.head?.any isDigit := dot rfl (by simp [hc])
        rw [← same]
        split_ifs at size ⊢ with digit
        · omega
        · rfl
      · simp [hc]
  | cons c rest =>
    simp only [List.cons_append, fractionLength, head?_append rest h.head, digitCount_stop h.stop,
      digitCount_stop h.stop']

theorem exponentLength_congr (h : EndsNumber z z') (size : exponentLength (u ++ z) ≤ u.length) :
    exponentLength (u ++ z') = exponentLength (u ++ z) := by
  cases u with
  | nil =>
    have none {s : Bytes} (stop : s.head?.any isIdentPart = false) : exponentLength s = 0 := by
      cases s with
      | nil => rfl
      | cons c rest =>
        have letter : ¬ (c = 0x65 ∨ c = 0x45) := by
          rintro (rfl | rfl) <;> exact Bool.noConfusion stop
        simp only [exponentLength]
        rw [if_neg (by simp_all)]
    rw [List.nil_append, List.nil_append, none h.stop, none h.stop']
  | cons c rest =>
    cases rest with
    | cons a more =>
      have counts : digitCount (a :: (more ++ z')) = digitCount (a :: (more ++ z)) := by
        rw [← List.cons_append, ← List.cons_append, digitCount_stop h.stop, digitCount_stop h.stop']
      have later : digitCount (more ++ z') = digitCount (more ++ z) := by
        rw [digitCount_stop h.stop, digitCount_stop h.stop']
      by_cases signed : a = 0x2b ∨ a = 0x2d
      · simp [exponentLength, signed, later]
      · simp [exponentLength, signed, counts]
    | nil =>
      -- A sign may follow the letter, and a digit that sign.
      have zero {s : Bytes} (stop : s.head?.any isIdentPart = false) : digitCount s = 0 :=
        digitCount_eq_zero_iff.mpr (not_digit_of_stop stop)
      simp only [List.singleton_append, exponentLength, ← h.head, List.length_singleton] at size ⊢
      by_cases signed : z.head? = some 0x2b ∨ z.head? = some 0x2d
      · have second := h.sign signed.symm
        have flag : (if z.head? = some 0x2b || z.head? = some 0x2d then 1 else 0) = 1 := by
          simp [signed]
        rw [flag] at size ⊢
        rw [List.drop_one, List.drop_one] at *
        have same : digitCount z.tail = 0 ↔ digitCount z'.tail = 0 := by
          rw [digitCount_eq_zero_iff, digitCount_eq_zero_iff, second]
        split_ifs at size ⊢ <;> simp_all <;> omega
      · have flag : (if z.head? = some 0x2b || z.head? = some 0x2d then 1 else 0) = 0 := by
          simp [signed]
        rw [flag, List.drop_zero, List.drop_zero, zero h.stop, zero h.stop']

theorem suffixLength_congr (h : EndsNumber z z') :
    suffixLength (u ++ z') = suffixLength (u ++ z) := by
  cases u with
  | nil =>
    have none {s : Bytes} (stop : s.head?.any isIdentPart = false) : suffixLength s = 0 := by
      cases s with
      | nil => rfl
      | cons c rest =>
        have plain : isNumberSuffix c = false := by
          cases suffix : isNumberSuffix c with
          | false => rfl
          | true => simp [isIdentPart_of_isNumberSuffix c suffix] at stop
        simp [suffixLength, plain]
    rw [List.nil_append, List.nil_append, none h.stop, none h.stop']
  | cons c rest => simp only [List.cons_append, suffixLength, head?_append rest h.head]

theorem decimalNumber_congr (h : EndsNumber z z') (size : (decimalNumber (u ++ z)).2 ≤ u.length)
    (dot : decimalNumber (u ++ z) = (.intLit, u.length) → z.head? = some 0x2e →
      z.tail.head?.any isDigit = z'.tail.head?.any isDigit) :
    decimalNumber (u ++ z') = decimalNumber (u ++ z) := by
  have whole : digitCount (u ++ z) = digitCount u := digitCount_stop h.stop
  have whole' : digitCount (u ++ z') = digitCount u := digitCount_stop h.stop'
  simp only [decimalNumber, whole] at size dot
  generalize hf : fractionLength ((u ++ z).drop (digitCount u)) = f at size dot
  generalize he : exponentLength ((u ++ z).drop (digitCount u + f)) = e at size dot
  have split {k : Nat} (le : k ≤ u.length) (w : Bytes) : (u ++ w).drop k = u.drop k ++ w :=
    List.drop_append_of_le_length le
  have fraction : fractionLength ((u ++ z').drop (digitCount u)) = f := by
    have le : digitCount u ≤ u.length := by omega
    rw [split le] at hf ⊢
    rw [fractionLength_congr h (by rw [hf, List.length_drop]; omega), hf]
    intro none
    rw [List.drop_eq_nil_iff] at none
    refine dot (Prod.ext ?_ (by dsimp only; omega))
    rw [show f = 0 by omega, show e = 0 by omega]
    rfl
  have exponent : exponentLength ((u ++ z').drop (digitCount u + f)) = e := by
    have le : digitCount u + f ≤ u.length := by omega
    rw [split le] at he ⊢
    rw [exponentLength_congr h (by rw [he, List.length_drop]; omega), he]
  have suffix : suffixLength ((u ++ z').drop (digitCount u + f + e)) =
      suffixLength ((u ++ z).drop (digitCount u + f + e)) := by
    have le : digitCount u + f + e ≤ u.length := by omega
    rw [split le, split le, suffixLength_congr h]
  simp only [decimalNumber, whole, whole', fraction, hf, exponent, he, suffix]

theorem unsignedNumber_congr (h : EndsNumber z z') (first : u ≠ [])
    (size : (unsignedNumber (u ++ z)).2 ≤ u.length)
    (dot : unsignedNumber (u ++ z) = (.intLit, u.length) → z.head? = some 0x2e →
      z.tail.head?.any isDigit = z'.tail.head?.any isDigit) :
    unsignedNumber (u ++ z') = unsignedNumber (u ++ z) := by
  rcases u with _ | ⟨a, _ | ⟨b, rest⟩⟩
  · exact absurd rfl first
  · -- The text after the number does not begin with the letter of a hexadecimal one.
    have plain {w : Bytes} (stop : w.head?.any isIdentPart = false) :
        unsignedNumber ([a] ++ w) = decimalNumber ([a] ++ w) := by
      cases w with
      | nil => rfl
      | cons x rest =>
        have letter : ¬ (x = 0x78 ∨ x = 0x58) := by
          rintro (rfl | rfl) <;> exact Bool.noConfusion stop
        simp only [List.singleton_append, unsignedNumber]
        rw [if_neg (by simp_all)]
    rw [plain h.stop] at size dot ⊢
    rw [plain h.stop', decimalNumber_congr h size dot]
  · have hex {w : Bytes} (stop : w.head?.any isIdentPart = false) : w.head?.any isHexDigit = false := by
      cases w with
      | nil => rfl
      | cons c rest =>
        cases digit : isHexDigit c with
        | false => simpa using digit
        | true => simp [isIdentPart_of_isHexDigit c digit] at stop
    simp only [List.cons_append, unsignedNumber] at size dot ⊢
    by_cases letter : (a = 0x30 && (b = 0x78 || b = 0x58)) = true
    · simp only [if_pos letter, takeWhile_stop (hex h.stop), takeWhile_stop (hex h.stop')]
    · simp only [if_neg letter] at size dot ⊢
      exact decimalNumber_congr (u := a :: b :: rest) h size dot

theorem one_le_unsignedNumber {s : Bytes} (digit : s.head?.any isDigit = true) :
    1 ≤ (unsignedNumber s).2 := by
  have decimal : 1 ≤ (decimalNumber s).2 := by
    have : digitCount s ≠ 0 := fun none => by
      rw [digitCount_eq_zero_iff.mp none] at digit
      contradiction
    simp only [decimalNumber]
    omega
  fun_cases unsignedNumber s with
  | case1 =>
    dsimp only
    omega
  | case2 => exact decimal
  | case3 => exact decimal

/-- A number takes the bytes of its digits, and the letters and digits that make it invalid. -/
theorem number_size {sign : Nat} (digit : u.head?.any isDigit = true)
    (size : (number sign (u ++ z)).extra + 1 = sign + u.length) :
    (unsignedNumber (u ++ z)).2 +
      (((u ++ z).drop (unsignedNumber (u ++ z)).2).takeWhile isIdentPart).length = u.length := by
  have pos : 1 ≤ (unsignedNumber (u ++ z)).2 := by
    apply one_le_unsignedNumber
    cases u with
    | nil => contradiction
    | cons => exact digit
  simp only [number] at size
  split_ifs at size with invalid
  · have size : sign + (unsignedNumber (u ++ z)).2 +
        (((u ++ z).drop (unsignedNumber (u ++ z)).2).takeWhile isIdentPart).length - 1 + 1 =
          sign + u.length := size
    omega
  · have size : sign + (unsignedNumber (u ++ z)).2 - 1 + 1 = sign + u.length := size
    simp only [Bool.or_eq_true, decide_eq_true_eq, not_or, ne_eq, Decidable.not_not] at invalid
    omega

/-- No letter or digit follows a number. -/
theorem number_stop {sign : Nat} (digit : u.head?.any isDigit = true)
    (size : (number sign (u ++ z)).extra + 1 = sign + u.length) :
    z.head?.any isIdentPart = false := by
  have whole := number_size digit size
  generalize (unsignedNumber (u ++ z)).2 = length at whole
  apply stop_of_takeWhile (u := u.drop length)
  rw [List.drop_append_of_le_length (by omega)] at whole
  rw [List.length_drop]
  omega

theorem number_congr {sign : Nat} (digit : u.head?.any isDigit = true)
    (size : (number sign (u ++ z)).extra + 1 = sign + u.length) (head : z.head? = z'.head?)
    (signed : z.head? = some 0x2d ∨ z.head? = some 0x2b → z.tail.head? = z'.tail.head?)
    (dot : (number sign (u ++ z)).kind.joinsDot = true → z.head? = some 0x2e →
      z.tail.head?.any isDigit = z'.tail.head?.any isDigit) :
    number sign (u ++ z') = number sign (u ++ z) := by
  have first : u ≠ [] := by
    rintro rfl
    contradiction
  have whole := number_size digit size
  have ends : EndsNumber z z' := ⟨number_stop digit size, head, signed⟩
  simp only [number] at dot
  generalize hn : unsignedNumber (u ++ z) = n at dot whole
  obtain ⟨kind, length⟩ := n
  dsimp only at whole
  have split (w : Bytes) : (u ++ w).drop length = u.drop length ++ w :=
    List.drop_append_of_le_length (by omega)
  rw [split] at whole dot
  have rest : ((u.drop length ++ z).takeWhile isIdentPart).length = (u.drop length).length := by
    rw [List.length_drop]
    omega
  have same : unsignedNumber (u ++ z') = (kind, length) := by
    rw [unsignedNumber_congr ends first (by rw [hn]; dsimp only; omega), hn]
    intro int
    obtain ⟨rfl, rfl⟩ : kind = .intLit ∧ length = u.length := by simpa [hn] using int
    have none : (u.drop u.length ++ z).takeWhile isIdentPart = [] :=
      List.length_eq_zero_iff.mp (by omega)
    exact dot (by simp only [none]; rfl)
  simp only [number, hn, same, split, takeWhile_congr (Nat.le_of_eq rest) head]

/-! ## Minus signs and other characters -/

theorem takeWhile_take {s : Bytes} {n : Nat} (h : (s.takeWhile p).length ≤ n) :
    (s.take n).takeWhile p = s.takeWhile p := by
  induction s generalizing n with
  | nil => simp
  | cons c rest ih =>
    rw [List.takeWhile_cons] at h ⊢
    cases n with
    | zero =>
      split_ifs at h ⊢
      · simp at h
      · rfl
    | succ n =>
      rw [List.take_succ_cons, List.takeWhile_cons]
      split_ifs at h ⊢
      · rw [ih (by simpa using h)]
      · rfl

theorem takeWhile_le_identLength (s : Bytes) : (s.takeWhile isIdentPart).length ≤ identLength s := by
  fun_induction identLength s with
  | case1 => simp
  | case2 c rest part ih =>
    rw [List.takeWhile_cons, if_pos part, List.length_cons]
    omega
  | case3 c rest part _ ih | case4 c rest part _ => simp [part]

/-- A letter begins a word. -/
theorem first_word {c : UInt8} (start : isIdentStart c = true) (rest : Bytes) :
    first c rest = ⟨wordKind (c :: rest.take (identLength rest)), identLength rest, none⟩ := by
  have plain : ∀ c : UInt8, isIdentStart c = true → isBlank c = false ∧ c ≠ 0x0a ∧ c ≠ 0x0d ∧
      c ≠ 0x2f ∧ c ≠ 0x22 ∧ c ≠ 0x60 ∧ punctuation? c = none ∧ c ≠ 0x2d ∧ isDigit c = false :=
    forall_byte (by decide +kernel)
  obtain ⟨blank, lf, cr, slash, quote, back, punct, minus, digit⟩ := plain c start
  simp [first, blank, lf, cr, slash, quote, back, punct, minus, digit, start]

/-- The first token of a word holds the letters and digits at its start. -/
theorem takeWhile_of_next {s r : Bytes} {t : Token} (h : Token.next? s = some (t, r))
    (start : s.head?.any isIdentStart = true) :
    s.takeWhile isIdentPart = t.text.takeWhile isIdentPart := by
  cases s with
  | nil => contradiction
  | cons c rest =>
    replace start : isIdentStart c = true := by simpa using start
    simp only [Token.next?, first_word start, Option.some.injEq, Prod.mk.injEq] at h
    obtain ⟨rfl, -⟩ := h
    rw [List.takeWhile_cons, List.takeWhile_cons, takeWhile_take (takeWhile_le_identLength rest)]

/-- A minus sign before the letters and digits of the word makes it minus infinity. -/
theorem infinity_iff {s : Bytes} :
    (infinity.isPrefixOf s && !(s.drop infinity.length).head?.any isIdentPart) = true ↔
      s.takeWhile isIdentPart = infinity := by
  have letters : infinity.takeWhile isIdentPart = infinity := by decide
  rw [Bool.and_eq_true, List.isPrefixOf_iff_prefix, Bool.not_eq_true']
  constructor
  · rintro ⟨⟨rest, rfl⟩, stop⟩
    rw [List.drop_left] at stop
    rw [takeWhile_stop stop, letters]
  · intro h
    obtain ⟨rest, rfl⟩ : infinity <+: s := h ▸ s.takeWhile_prefix _
    rw [List.drop_left]
    exact ⟨⟨rest, rfl⟩, stop_of_takeWhile (congrArg List.length h)⟩

theorem head?_of_infinity {s : Bytes} (h : s.takeWhile isIdentPart = infinity) :
    s.head? = some 0x49 := by
  cases s with
  | nil => contradiction
  | cons c rest =>
    rw [List.takeWhile_cons] at h
    split_ifs at h
    · exact congrArg some (List.cons.inj h).1
    · contradiction

theorem minus_eq (s : Bytes) : minus s =
    if s.takeWhile isIdentPart = infinity then ⟨.floatLit, infinity.length, none⟩
    else if s.head?.any isDigit then number 1 s else malformed .unexpectedCharacter 0 := by
  simp only [minus, infinity_iff]

theorem not_infinity {s : Bytes} (digit : s.head?.any isDigit = true) :
    s.takeWhile isIdentPart ≠ infinity := by
  intro word
  rw [head?_of_infinity word] at digit
  contradiction

/-- A minus sign before a digit makes a negative number. -/
theorem minus_digit (digit : (u ++ z).head?.any isDigit = true)
    (size : (minus (u ++ z)).extra = u.length) :
    minus (u ++ z) = number 1 (u ++ z) ∧ u.head?.any isDigit = true := by
  have eq : minus (u ++ z) = number 1 (u ++ z) := by
    rw [minus_eq, if_neg (not_infinity digit), if_pos digit]
  refine ⟨eq, ?_⟩
  cases u with
  | nil =>
    have := one_le_unsignedNumber digit
    rw [eq] at size
    simp only [number] at size
    split_ifs at size <;> simp only [malformed, List.length_nil] at size <;> omega
  | cons => exact digit

/-- Minus infinity and negative numbers. -/
theorem minus_proper_congr (size : (minus (u ++ z)).extra = u.length)
    (proper : (u ++ z).takeWhile isIdentPart = infinity ∨ (u ++ z).head?.any isDigit = true)
    (head : z.head? = z'.head?)
    (signed : z.head? = some 0x2d ∨ z.head? = some 0x2b → z.tail.head? = z'.tail.head?)
    (dot : (minus (u ++ z)).kind.joinsDot = true → z.head? = some 0x2e →
      z.tail.head?.any isDigit = z'.tail.head?.any isDigit) :
    minus (u ++ z') = minus (u ++ z) := by
  rcases proper with word | digit
  · rw [minus_eq, if_pos word] at size
    have same := takeWhile_congr (by rw [word]; exact Nat.le_of_eq size) head
    rw [minus_eq, minus_eq, same, if_pos word, if_pos word]
  · have digit' : (u ++ z').head?.any isDigit = true := by rwa [← head?_append u head]
    obtain ⟨eq, first⟩ := minus_digit digit size
    rw [eq] at size dot
    rw [eq, minus_eq, if_neg (not_infinity digit'), if_pos digit',
      number_congr first (by omega) head signed dot]

theorem minus_congr {t : Token} {r r' : Bytes} (size : (minus (u ++ z)).extra = u.length)
    (hz : Token.next? z = some (t, r)) (hz' : Token.next? z' = some (t, r'))
    (head : z.head? = z'.head?)
    (signed : z.head? = some 0x2d ∨ z.head? = some 0x2b → z.tail.head? = z'.tail.head?)
    (dot : (minus (u ++ z)).kind.joinsDot = true → z.head? = some 0x2e →
      z.tail.head?.any isDigit = z'.tail.head?.any isDigit) :
    minus (u ++ z') = minus (u ++ z) := by
  by_cases word : (u ++ z).takeWhile isIdentPart = infinity
  · exact minus_proper_congr size (.inl word) head signed dot
  by_cases digit : (u ++ z).head?.any isDigit = true
  · exact minus_proper_congr size (.inr digit) head signed dot
  rw [minus_eq, if_neg word, if_neg digit] at size
  obtain rfl : u = [] := List.length_eq_zero_iff.mp size.symm
  simp only [List.nil_append] at word digit ⊢
  have word' : z'.takeWhile isIdentPart ≠ infinity := by
    intro h
    have start : z'.head?.any isIdentStart = true := by
      rw [head?_of_infinity h]
      rfl
    rw [takeWhile_of_next hz' start, ← takeWhile_of_next hz (head ▸ start)] at h
    exact word h
  rw [minus_eq, minus_eq, if_neg word, if_neg word', if_neg digit, if_neg (head ▸ digit)]

theorem other_congr (c : UInt8) {v y y' : Bytes} {b : UInt8} (ascii : b < 0x80) :
    other c (v ++ b :: y') = other c (v ++ b :: y) := by
  have low {l : UInt8} (h : 0x80 ≤ l) : ¬ l ≤ b :=
    UInt8.not_le.mpr (UInt8.lt_of_lt_of_le ascii h)
  have continues : Rune.continues b = false := by
    simp [Rune.continues, low (l := 0x80) (by decide)]
  have three (lead : UInt8) : Rune.secondOfThree lead b = false := by
    rw [Rune.secondOfThree, decide_eq_false (low _), Bool.false_and]
    split_ifs <;> decide
  have four (lead : UInt8) : Rune.secondOfFour lead b = false := by
    rw [Rune.secondOfFour, decide_eq_false (low _), Bool.false_and]
    split_ifs <;> decide
  -- No character goes on with an ASCII byte, so `read` does not get to what follows it.
  have same : Rune.read c (v ++ b :: y') = Rune.read c (v ++ b :: y) := by
    rcases v with _ | ⟨v₁, _ | ⟨v₂, _ | ⟨v₃, rest⟩⟩⟩ <;>
      simp only [List.nil_append, List.cons_append, Rune.read, continues, three, four,
        Bool.and_false, Bool.false_and, Bool.false_eq_true, if_false]
    · rcases y with _ | ⟨_, _ | _⟩ <;> rcases y' with _ | ⟨_, _ | _⟩ <;> rfl
    · cases y <;> cases y' <;> rfl
  simp only [other, same]

end Scan

/-! ## Tokens -/

namespace Token

/-- Two texts begin alike: with the same token, with the same bytes up to one that belongs to no
longer character, and with the same two bytes after a sign. -/
structure Agree (z z' : Bytes) : Prop where
  token : ∃ t r r', next? z = some (t, r) ∧ next? z' = some (t, r')
  ascii : ∃ v b y y', z = v ++ b :: y ∧ z' = v ++ b :: y' ∧ b < 0x80
  signed : z.head? = some 0x2d ∨ z.head? = some 0x2b → z.tail.head? = z'.tail.head?

namespace Agree

variable {z z' : Bytes}

theorem head (h : Agree z z') : z.head? = z'.head? := by
  obtain ⟨v, b, y, y', rfl, rfl, -⟩ := h.ascii
  exact Scan.head?_append v rfl

theorem ne_nil (h : Agree z z') : z ≠ [] := by
  obtain ⟨v, b, y, y', rfl, rfl, -⟩ := h.ascii
  simp

end Agree

end Token

namespace Scan

variable {z z' : Bytes}

/-- The ways to read a token that begins with a byte. -/
inductive Reads (c : UInt8) : (Bytes → Scan) → Prop
  | space : Reads c fun rest => ⟨.space, (rest.takeWhile isBlank).length, none⟩
  | newline : Reads c fun rest => ⟨.newline, if rest.head? = some 0x0a then 1 else 0, none⟩
  | slash : Reads c slash
  | string : Reads c (string 0 false)
  | quotedIdent : Reads c quotedIdent
  | char (kind : TokenKind) : Reads c fun _ => ⟨kind, 0, none⟩
  | minus : Reads c minus
  | number (digit : isDigit c = true) : Reads c fun rest => number 0 (c :: rest)
  | word : Reads c fun rest =>
      ⟨wordKind (c :: rest.take (identLength rest)), identLength rest, none⟩
  | other : Reads c (other c)

/-- The first byte decides how a token is read. -/
theorem reads_first (c : UInt8) : Reads c (first c) := by
  suffices Reads c fun rest => first c rest from this
  simp only [first]
  by_cases blank : isBlank c = true
  · simpa only [if_pos blank] using .space
  by_cases lf : c = 0x0a
  · simpa only [if_neg blank, if_pos lf] using .char .newline
  by_cases cr : c = 0x0d
  · simpa only [if_neg blank, if_neg lf, if_pos cr] using .newline
  by_cases atSlash : c = 0x2f
  · simpa only [if_neg blank, if_neg lf, if_neg cr, if_pos atSlash] using .slash
  by_cases quote : c = 0x22
  · simpa only [if_neg blank, if_neg lf, if_neg cr, if_neg atSlash, if_pos quote] using .string
  simp only [if_neg blank, if_neg lf, if_neg cr, if_neg atSlash, if_neg quote]
  by_cases back : c = 0x60
  · simpa only [if_pos back] using .quotedIdent
  simp only [if_neg back]
  cases punctuation? c with
  | some kind => exact .char kind
  | none =>
    by_cases sign : c = 0x2d
    · simpa only [if_pos sign] using .minus
    by_cases digit : isDigit c = true
    · simpa only [if_neg sign, if_pos digit] using .number digit
    by_cases start : isIdentStart c = true
    · simpa only [if_neg sign, if_neg digit, if_pos start] using .word
    · simpa only [if_neg sign, if_neg digit, if_neg start] using .other

/-- What a token depends on: the text after it matters as far as `Agree` says, and for what a dot
can join the byte after the dot. -/
theorem first_congr {c : UInt8} {u : Bytes} (size : (first c (u ++ z)).extra = u.length)
    (h : Token.Agree z z')
    (dot : (first c (u ++ z)).kind.joinsDot = true → z.head? = some 0x2e →
      z.tail.head? = z'.tail.head?) : first c (u ++ z') = first c (u ++ z) := by
  have head := h.head
  have reads := reads_first c
  generalize first c = read at reads size dot ⊢
  cases reads with
  | space => simp only [takeWhile_congr (Nat.le_of_eq size) head]
  | newline => simp only [head?_append u head]
  | slash => exact slash_congr size head h.ne_nil
  | string => exact string_congr (by rw [size, Nat.zero_add]) head
  | quotedIdent => exact quotedIdent_congr size head
  | char kind => rfl
  | minus =>
    obtain ⟨t, r, r', hz, hz'⟩ := h.token
    exact minus_congr size hz hz' head h.signed fun join point => congrArg _ (dot join point)
  | number digit =>
    exact number_congr (u := c :: u) (by simpa using digit)
      (by rw [List.cons_append, size, List.length_cons, Nat.zero_add]) head h.signed
      fun join point => congrArg _ (dot join point)
  | word =>
    have join : (wordKind (c :: (u ++ z).take (identLength (u ++ z)))).joinsDot = true := by
      unfold wordKind
      split_ifs <;> rfl
    have second (hz : z.head? = some 0x2e ∨ z.head? = some 0x2d) : z.tail.head? = z'.tail.head? :=
      hz.elim (dot join) fun minus => h.signed (.inl minus)
    dsimp only at size
    simp only [identLength_congr size head second, size, List.take_left]
  | other =>
    obtain ⟨v, b, y, y', rfl, rfl, ascii⟩ := h.ascii
    rw [← List.append_assoc, ← List.append_assoc, other_congr c ascii]

end Scan

namespace Token

variable {z z' : Bytes}

/-- The token before texts that begin alike is the same. -/
theorem next?_congr {s : Token} (h : Agree z z') (found : next? (s.text ++ z) = some (s, z))
    (dot : s.kind.joinsDot = true → z.head? = some 0x2e → z.tail.head? = z'.tail.head?) :
    next? (s.text ++ z') = some (s, z') := by
  cases text : s.text with
  | nil => exact absurd text (next?_text found).2
  | cons c u =>
    rw [text, List.cons_append, next?, Option.some.injEq, Prod.mk.injEq] at found
    obtain ⟨token, rest⟩ := found
    have size : (Scan.first c (u ++ z)).extra = u.length := by
      have whole := congrArg (fun t : Token => t.text) token
      rw [text] at whole
      have short := congrArg List.length (List.cons.inj whole).2
      have long := congrArg List.length rest
      have := List.length_pos_iff.mpr h.ne_nil
      simp only [List.length_take, List.length_drop, List.length_append] at short long
      omega
    have kind : (Scan.first c (u ++ z)).kind = s.kind := congrArg Token.kind token
    have same := Scan.first_congr size h fun join => dot (kind ▸ join)
    rw [size, List.take_left] at token
    rw [List.cons_append, next?, same, size, List.take_left, List.drop_left, token]

theorem Agree.cons {s : Token} (h : Agree z z') (found : next? (s.text ++ z) = some (s, z))
    (found' : next? (s.text ++ z') = some (s, z')) : Agree (s.text ++ z) (s.text ++ z') := by
  obtain ⟨c, u, text⟩ := List.exists_cons_of_ne_nil (next?_text found).2
  obtain ⟨v, b, y, y', rfl, rfl, ascii⟩ := h.ascii
  refine ⟨⟨s, _, _, found, found'⟩, ⟨s.text ++ v, b, y, y', ?_, ?_, ascii⟩, ?_⟩
  · rw [List.append_assoc]
  · rw [List.append_assoc]
  · intro _
    rw [text]
    exact Scan.head?_append u h.head

theorem text_ne_nil {s : Bytes} {t : Token} (h : t ∈ all s) : t.text ≠ [] := by
  fun_induction all s with
  | case1 => simp at h
  | case2 s t' rest found ih =>
    rcases List.mem_cons.mp h with rfl | h
    · exact (next?_text found).2
    · exact ih h

/-- Tokens that stand in front of texts that begin alike are the same. Induction on the tokens from
the last one on: what they begin with is alike too. -/
theorem all_front {x x' : Bytes} (agree : Agree x x') {front : List Token}
    (dot : ∀ s ∈ front.getLast?, s.kind.joinsDot = true → x.head? = some 0x2e →
      x.tail.head? = x'.tail.head?)
    (h : all (textOf front ++ x) = front ++ all x) :
    all (textOf front ++ x') = front ++ all x' ∧ Agree (textOf front ++ x) (textOf front ++ x') := by
  induction front with
  | nil => exact ⟨rfl, agree⟩
  | cons s rest ih =>
    rw [textOf_cons, List.append_assoc] at h ⊢
    obtain ⟨⟨t, r⟩, found⟩ : ∃ p, next? (s.text ++ (textOf rest ++ x)) = some p := by
      cases found : next? (s.text ++ (textOf rest ++ x)) with
      | some p => exact ⟨p, rfl⟩
      | none =>
        rw [next?_eq_none found] at h
        simp at h
    rw [all_eq_cons found, List.cons_append] at h
    obtain ⟨rfl, more⟩ := List.cons.inj h
    obtain rfl := all_append more
    have last {s : Token} (h : s ∈ rest.getLast?) : s ∈ (t :: rest).getLast? := by
      cases rest with
      | nil => simp at h
      | cons a more => rwa [List.getLast?_cons_cons]
    obtain ⟨same, alike⟩ := ih (fun s hs => dot s (last hs)) more
    have found' : next? (t.text ++ (textOf rest ++ x')) = some (t, textOf rest ++ x') := by
      refine next?_congr alike found fun join => ?_
      cases rest with
      | nil => exact dot t (by simp) join
      | cons a others =>
        -- The second byte belongs to the next tokens, or it is the first one after them.
        intro _
        have some : a.text ≠ [] := by
          refine text_ne_nil (s := textOf (a :: others) ++ x) ?_
          rw [more]
          exact List.mem_cons_self
        obtain ⟨c, u, text⟩ := List.exists_cons_of_ne_nil some
        rw [textOf_cons, text, List.cons_append, List.cons_append, List.cons_append]
        exact Scan.head?_append (u ++ textOf others) agree.head
    rw [List.append_assoc]
    exact ⟨by rw [all_eq_cons found', same]; rfl, alike.cons found found'⟩

end Token

namespace Scan

theorem other_kind (c : UInt8) (rest : Bytes) :
    (other c rest).kind = .error ∨ (other c rest).kind = .space := by
  unfold other
  repeat' split
  all_goals simp [malformed]

/-- The bytes that begin no token but white space and malformed ones. -/
theorem first_other {c : UInt8} (h : 0x80 ≤ c ∨ c = 0x2b) (rest : Bytes) :
    first c rest = other c rest := by
  have plain : ∀ c : UInt8, 0x80 ≤ c ∨ c = 0x2b → isBlank c = false ∧ c ≠ 0x0a ∧ c ≠ 0x0d ∧
      c ≠ 0x2f ∧ c ≠ 0x22 ∧ c ≠ 0x60 ∧ punctuation? c = none ∧ c ≠ 0x2d ∧ isDigit c = false ∧
      isIdentStart c = false :=
    forall_byte (by decide +kernel)
  obtain ⟨blank, lf, cr, slash, quote, back, punct, minus, digit, start⟩ := plain c h
  simp [first, blank, lf, cr, slash, quote, back, punct, minus, digit, start]

/-- A minus sign alone is malformed. -/
theorem minus_takes {rest : Bytes} (h : (minus rest).kind ≠ .error) :
    rest ≠ [] ∧ 1 ≤ (minus rest).extra := by
  unfold minus at h ⊢
  split_ifs at h ⊢ with word digit
  · refine ⟨?_, by decide⟩
    rintro rfl
    contradiction
  · refine ⟨?_, ?_⟩
    · rintro rfl
      contradiction
    · have := one_le_unsignedNumber digit
      simp only [number]
      split_ifs <;> simp only [malformed] <;> omega
  · exact absurd rfl h

end Scan

namespace Token

variable {x x' r r' : Bytes} {t : Token}

/-- Texts that begin with the same token are alike, if it is neither malformed nor white space. -/
theorem agree_of_next (h : next? x = some (t, r)) (h' : next? x' = some (t, r'))
    (proper : t.kind ≠ .error) (sees : t.kind.isTrivia = false) : Agree x x' := by
  obtain ⟨c, u, text⟩ := List.exists_cons_of_ne_nil (next?_text h).2
  have hx : x = c :: (u ++ r) := by rw [← (next?_text h).1, text, List.cons_append]
  have hx' : x' = c :: (u ++ r') := by rw [← (next?_text h').1, text, List.cons_append]
  have token := h
  rw [hx, next?, Option.some.injEq, Prod.mk.injEq] at token
  have kind : (Scan.first c (u ++ r)).kind = t.kind := congrArg Token.kind token.1
  have known : ¬ (0x80 ≤ c ∨ c = 0x2b) := by
    intro high
    rw [Scan.first_other high] at kind
    rcases Scan.other_kind c (u ++ r) with e | e
    · exact proper (kind ▸ e)
    · rw [← kind, e] at sees
      contradiction
  refine ⟨⟨t, r, r', h, h'⟩, ⟨[], c, u ++ r, u ++ r', hx, hx', ?_⟩, ?_⟩
  · exact UInt8.not_le.mp fun high => known (.inl high)
  · rintro (sign | sign)
    · obtain rfl : c = 0x2d := by
        rw [hx] at sign
        exact Option.some.inj sign
      obtain ⟨more, takes⟩ : u ++ r ≠ [] ∧ 1 ≤ (Scan.minus (u ++ r)).extra :=
        Scan.minus_takes fun e => proper (kind ▸ e)
      have taken : (u ++ r).take (Scan.minus (u ++ r)).extra = u := by
        have whole := congrArg Token.text token.1
        rw [text] at whole
        exact (List.cons.inj whole).2
      cases u with
      | nil =>
        rcases List.take_eq_nil_iff.mp taken with none | none
        · omega
        · exact absurd none more
      | cons d rest => rw [hx, hx']; rfl
    · rw [hx] at sign
      exact absurd (.inr (Option.some.inj sign)) known

/-- A token that is not malformed is known by its kind and its text. -/
theorem eq_of_next {t' : Token} (h : next? x = some (t, r)) (h' : next? x' = some (t', r'))
    (kind : t'.kind = t.kind) (text : t'.text = t.text) (proper : t.kind ≠ .error) : t' = t := by
  have clean := (error_eq_none_iff (s := x) (by simp [all_eq_cons h])).mpr proper
  have clean' := (error_eq_none_iff (s := x') (by simp [all_eq_cons h'])).mpr (kind ▸ proper)
  obtain ⟨k, s, e⟩ := t
  obtain ⟨k', s', e'⟩ := t'
  simp_all

/-- The tokens in front of a place stay when the text from there on is replaced by one that begins
with the same token. -/
theorem all_replace {front : List Token} (h : next? x = some (t, r)) (h' : next? x' = some (t, r'))
    (proper : t.kind ≠ .error) (sees : t.kind.isTrivia = false)
    (apart : t.kind = .dot → ∀ s ∈ front.getLast?, s.kind.joinsDot = false)
    (tokens : all (textOf front ++ x) = front ++ all x) :
    all (textOf front ++ x') = front ++ all x' := by
  refine (all_front (agree_of_next h h' proper sees) ?_ tokens).1
  intro s last join dot
  have isDot : t.kind = .dot := by
    obtain ⟨rest, rfl⟩ := List.head?_eq_some_iff.mp dot
    rw [next?, Option.some.injEq, Prod.mk.injEq] at h
    rw [← h.1]
    rfl
  rw [apart isDot s last] at join
  contradiction

end Token

end AvroIdl
