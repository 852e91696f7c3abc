import AvroIdl.Proofs.Token.Locality
import Mathlib.Data.List.Forall2
import Mathlib.Data.List.TakeWhile

/-!
# Names in a text

What a well-formed token is does not depend on the name that follows it. So if names of a text
without malformed tokens are replaced by other names, the tokens of the new text are the old ones
with the names replaced: `Token.all_replaced`.
-/

namespace AvroIdl

theorem isIdentPart_of_isIdentStart {c : UInt8} (h : isIdentStart c = true) :
    isIdentPart c = true := by
  simp [isIdentPart, h]

namespace Scan

variable {p : UInt8 → Bool} {u z z' : Bytes}

/-- Both texts begin as a name does. -/
def BothNames (z z' : Bytes) : Prop :=
  z.head?.any isIdentStart = true ∧ z'.head?.any isIdentStart = true

/-- The texts begin alike for a token before them, but that they may begin with different names, or
with a dot and different names. -/
structure Alike (z z' : Bytes) : Prop where
  head : z.head? = z'.head? ∨ BothNames z z'
  signed : z.head? = some 0x2d ∨ z.head? = some 0x2b → z.tail.head? = z'.tail.head?
  dot : z.head? = some 0x2e → z.tail.head? = z'.tail.head? ∨ BothNames z.tail z'.tail

theorem Alike.of_names (h : BothNames z z') : Alike z z' := by
  have plain {c : UInt8} (other : isIdentStart c = false) : z.head? ≠ some c := by
    intro here
    have name := h.1
    rw [here, Option.any_some, other] at name
    contradiction
  refine ⟨.inr h, ?_, fun dot => absurd dot (plain (by decide))⟩
  rintro (sign | sign)
  · exact absurd sign (plain (by decide))
  · exact absurd sign (plain (by decide))

theorem any_of_isIdentStart (plain : ∀ c, isIdentStart c = true → p c = false)
    (h : z.head?.any isIdentStart = true) : z.head?.any p = false := by
  cases z with
  | nil => rfl
  | cons c rest => exact plain c (by simpa using h)

/-- Bytes of a class without letters end in the same place. -/
theorem Alike.takeWhile (h : Alike z z') (plain : ∀ c, isIdentStart c = true → p c = false)
    (size : ((u ++ z).takeWhile p).length ≤ u.length) :
    (u ++ z').takeWhile p = (u ++ z).takeWhile p := by
  rcases h.head with same | ⟨name, name'⟩
  · exact takeWhile_congr size same
  · rw [takeWhile_stop (any_of_isIdentStart plain name), takeWhile_stop (any_of_isIdentStart plain name')]

/-- Where no letter or digit follows, the next byte is the same. -/
theorem Alike.head_eq (h : Alike z z') (stop : z.head?.any isIdentPart = false) :
    z.head? = z'.head? := by
  rcases h.head with same | ⟨name, -⟩
  · exact same
  · cases z with
    | nil => contradiction
    | cons c rest =>
      rw [List.head?_cons, Option.any_some] at stop name
      rw [isIdentPart_of_isIdentStart name] at stop
      contradiction

/-! ## Tokens that end by themselves -/

theorem string_proper {taken : Nat} {escaped : Bool}
    (size : (string taken escaped (u ++ z)).extra = taken + u.length)
    (proper : (string taken escaped (u ++ z)).kind ≠ .error) :
    string taken escaped (u ++ z') = string taken escaped (u ++ z) := by
  induction u generalizing taken escaped with
  | nil =>
    -- The string would have to go on.
    have more := le_string (taken + 1)
    cases z with
    | nil => exact absurd rfl proper
    | cons c rest =>
      simp only [List.nil_append, string, List.length_nil] at size proper
      split_ifs at size proper
      · exact absurd rfl proper
      · have := more false rest
        omega
      · have := more true rest
        omega
      · simp at size
      · have := more false rest
        omega
  | cons c rest ih =>
    simp only [List.cons_append, string, List.length_cons] at size proper ⊢
    split_ifs at size proper ⊢
    · exact absurd rfl proper
    · exact ih (by omega) proper
    · exact ih (by omega) proper
    · rfl
    · exact ih (by omega) proper

theorem quotedIdent_proper (size : (quotedIdent (u ++ z)).extra = u.length)
    (proper : (quotedIdent (u ++ z)).kind ≠ .error) :
    quotedIdent (u ++ z') = quotedIdent (u ++ z) := by
  simp only [quotedIdent] at size proper
  split_ifs at size proper with closed
  · -- The closing backquote is the last byte of `u`.
    have size : ((u ++ z).takeWhile isIdentPart).length + 1 = u.length := size
    have inside : (u ++ z).takeWhile isIdentPart = u.takeWhile isIdentPart := by
      rw [List.takeWhile_append]
      split_ifs with full
      · rw [List.takeWhile_append, if_pos full, List.length_append] at size
        omega
      · rfl
    have inside' : (u ++ z').takeWhile isIdentPart = u.takeWhile isIdentPart := by
      rw [inside] at size
      rw [List.takeWhile_append, if_neg (by omega)]
    rw [inside] at size
    have some : u ≠ [] := by
      rintro rfl
      simp at size
    have first (w : Bytes) : (u ++ w).headD 0 = u.headD 0 := by
      cases u with
      | nil => contradiction
      | cons c rest => rfl
    have next (w : Bytes) : ((u ++ w).drop (u.takeWhile isIdentPart).length).head? =
        (u.drop (u.takeWhile isIdentPart).length).head? := by
      have more : u.drop (u.takeWhile isIdentPart).length ≠ [] := by
        rw [Ne, List.drop_eq_nil_iff]
        omega
      rw [List.drop_append_of_le_length (by omega)]
      obtain ⟨d, rest, eq⟩ := List.exists_cons_of_ne_nil more
      rw [eq]
      rfl
    simp only [quotedIdent, inside, inside', next, first]
  · exact absurd rfl proper

theorem slash_proper (h : Alike z z') (size : (slash (u ++ z)).extra = u.length)
    (proper : (slash (u ++ z)).kind ≠ .error) : slash (u ++ z') = slash (u ++ z) := by
  cases u with
  | nil =>
    cases z with
    | nil => exact absurd rfl proper
    | cons c rest =>
      simp only [List.nil_append, slash, List.length_nil] at size proper
      by_cases line : c = 0x2f
      · simp [line] at size
      · by_cases block : c = 0x2a
        · cases found : commentEnd? rest <;> simp [block, found, malformed] at size
        · simp [line, block, malformed] at proper
  | cons c rest =>
    simp only [List.cons_append, slash, List.length_cons] at size proper ⊢
    by_cases line : c = 0x2f
    · simp only [if_pos line] at size ⊢
      -- A line comment ends before the end of the line, and so before no name.
      have size : ((rest ++ z).takeWhile fun c => !isLineEnd c).length = rest.length := by omega
      have stop := stop_of_takeWhile size
      have same : z.head? = z'.head? := by
        rcases h.head with same | ⟨name, -⟩
        · exact same
        · cases z with
          | nil => contradiction
          | cons c rest =>
            have plain : ∀ c, isIdentStart c = true → isLineEnd c = false :=
              forall_byte (by decide +kernel)
            rw [List.head?_cons, Option.any_some] at stop name
            rw [plain c name] at stop
            contradiction
      rw [takeWhile_congr (Nat.le_of_eq size) same]
    · by_cases block : c = 0x2a
      · simp only [if_neg line, if_pos block] at size proper ⊢
        cases found : commentEnd? (rest ++ z) with
        | none =>
          rw [found] at proper
          exact absurd rfl proper
        | some n =>
          rw [found] at size
          obtain rfl : n = rest.length := by
            dsimp only at size
            omega
          have doc : isDoc (rest ++ z') = isDoc (rest ++ z) := isDoc_congr found
          simp [commentEnd?_congr found, doc]
      · simp only [if_neg line, if_neg block] at proper
        exact absurd rfl proper

/-- A character is read off its own bytes. -/
theorem Rune.read_front {c : UInt8} {code : Nat}
    (h : Rune.read c (u ++ z) = (.scalar code, u.length)) :
    Rune.read c (u ++ z') = (.scalar code, u.length) := by
  unfold Rune.read at h ⊢
  by_cases ascii : c < 0x80
  · rw [if_pos ascii] at h ⊢
    exact h
  · rw [if_neg ascii] at h ⊢
    -- The bytes after the character are looked at only where `u` is too short for it.
    rcases u with _ | ⟨a, _ | ⟨b, _ | ⟨d, rest⟩⟩⟩
    · exfalso
      rw [List.nil_append] at h
      repeat' split at h
      all_goals simp at h
    · rw [List.cons_append, List.nil_append] at h ⊢
      dsimp only at h ⊢
      split_ifs at h ⊢
      · exact h
      · exfalso
        repeat' split at h
        all_goals simp at h
    · rw [List.cons_append, List.cons_append, List.nil_append] at h ⊢
      dsimp only at h ⊢
      split_ifs at h ⊢
      · exact h
      · exact h
      · exfalso
        repeat' split at h
        all_goals simp at h
    · exact h

theorem other_proper {c : UInt8} (size : (other c (u ++ z)).extra = u.length)
    (proper : (other c (u ++ z)).kind ≠ .error) : other c (u ++ z') = other c (u ++ z) := by
  cases read : Rune.read c (u ++ z) with
  | mk rune extra =>
    cases rune with
    | stray byte =>
      rw [other, read] at proper
      exact absurd rfl proper
    | scalar code =>
      obtain rfl : extra = u.length := by
        rw [other, read] at size proper
        dsimp only at size proper
        split_ifs at size proper
        · exact size
        · exact absurd rfl proper
        · exact absurd rfl proper
      rw [other, other, read, Rune.read_front read]

/-! ## Words -/

/-- Nothing at the start of a text goes on with a word before it. -/
theorem identLength_split (h : identLength (u ++ z) = u.length) :
    identLength u = u.length ∧ identLength z = 0 := by
  induction u with
  | nil => exact ⟨rfl, h⟩
  | cons c rest ih =>
    rw [List.cons_append, identLength, List.length_cons] at h
    rw [identLength, List.length_cons]
    split_ifs at h with part joins
    · obtain ⟨whole, stop⟩ := ih (by omega)
      rw [if_pos part]
      exact ⟨by omega, stop⟩
    · obtain ⟨whole, stop⟩ := ih (by omega)
      rw [if_neg part]
      cases rest with
      | nil =>
        -- The name after the dot is a part of the word.
        cases z with
        | nil => simp at joins
        | cons d more =>
          have start : isIdentStart d = true := by
            simp only [List.nil_append, List.head?_cons, Option.any_some, Bool.and_eq_true] at joins
            exact joins.2
          rw [identLength, if_pos (isIdentPart_of_isIdentStart start)] at stop
          omega
      | cons d more =>
        rw [List.cons_append, List.head?_cons] at joins
        rw [List.head?_cons, if_pos joins]
        exact ⟨by omega, stop⟩

theorem identLength_append (h : identLength u = u.length) :
    identLength (u ++ z) = u.length + identLength z := by
  induction u with
  | nil => simp
  | cons c rest ih =>
    rw [identLength, List.length_cons] at h
    rw [List.cons_append, identLength, List.length_cons]
    split_ifs at h with part joins
    · rw [if_pos part, ih (by omega)]
      omega
    · cases rest with
      | nil => simp at joins
      | cons d more =>
        rw [List.head?_cons] at joins
        rw [if_neg part, List.cons_append, List.head?_cons, if_pos joins, ← List.cons_append,
          ih (by omega)]
        omega

theorem Alike.identLength_eq_zero (h : Alike z z') (stop : identLength z = 0) :
    identLength z' = 0 := by
  cases z with
  | nil =>
    rcases h.head with none | ⟨name, -⟩
    · rw [List.head?_eq_none_iff.mp none.symm]
      rfl
    · contradiction
  | cons c rest =>
    rw [identLength] at stop
    split_ifs at stop with part joins
    · omega
    · omega
    · have same := h.head_eq (by simpa using part)
      obtain ⟨rest', rfl⟩ := List.head?_eq_some_iff.mp same.symm
      have apart : ¬ ((c = 0x2e || c = 0x2d) && rest'.head?.any isIdentStart) = true := by
        rw [Bool.and_eq_true, Bool.or_eq_true, decide_eq_true_eq, decide_eq_true_eq] at joins ⊢
        rintro ⟨rfl | rfl, name⟩
        · rcases h.dot rfl with second | ⟨name', -⟩
          · exact joins ⟨.inl rfl, by rwa [show rest.head? = rest'.head? from second]⟩
          · exact joins ⟨.inl rfl, name'⟩
        · have second : rest.head? = rest'.head? := h.signed (.inl rfl)
          exact joins ⟨.inr rfl, by rwa [second]⟩
      rw [identLength, if_neg part, if_neg apart]

theorem string_kind (taken : Nat) (escaped : Bool) (s : Bytes) :
    (string taken escaped s).kind = .stringLit ∨ (string taken escaped s).kind = .error := by
  fun_induction string taken escaped s with
  | case1 | case2 => exact .inr rfl
  | case3 _ _ _ _ ih | case4 _ _ _ _ _ ih | case6 _ _ _ _ _ _ _ _ ih => exact ih
  | case5 => exact .inl rfl

theorem slash_kind (s : Bytes) :
    (slash s).kind.isTrivia = true ∨ (slash s).kind = .error := by
  fun_cases slash s with
  | case2 => exact .inl rfl
  | case3 =>
    dsimp only
    split <;> exact .inl rfl
  | _ => exact .inr rfl

theorem number_kind (sign : Nat) (s : Bytes) :
    (number sign s).kind = .intLit ∨ (number sign s).kind = .floatLit ∨
      (number sign s).kind = .error := by
  have decimal := decimalNumber_kind s
  have unsigned : (unsignedNumber s).1 = .intLit ∨ (unsignedNumber s).1 = .floatLit ∨
      (unsignedNumber s).1 = .error := by
    fun_cases unsignedNumber s with
    | case1 =>
      dsimp only
      split_ifs <;> simp
    | case2 | case3 => rcases decimal with h | h <;> simp [h]
  simp only [number]
  split_ifs
  · exact .inr (.inr rfl)
  · exact unsigned

/-- Names begin with a backquote or a letter. -/
theorem start_of_name {c : UInt8} {rest : Bytes}
    (name : (first c rest).kind = .ident ∨ (first c rest).kind = .keyword) :
    c = 0x60 ∨ isIdentStart c = true := by
  have other {k : TokenKind} (ident : k ≠ .ident) (keyword : k ≠ .keyword) :
      ¬ (k = .ident ∨ k = .keyword) := not_or.mpr ⟨ident, keyword⟩
  revert name
  fun_cases first c rest with
  | case4 =>
    intro name
    rcases slash_kind rest with h | h <;> rcases name with name | name <;> simp [name, TokenKind.isTrivia] at h
  | case5 =>
    intro name
    rcases string_kind 0 false rest with h | h <;> simp [h] at name
  | case6 _ _ _ _ _ back => exact fun _ => .inl back
  | case7 _ _ _ _ _ _ kind found =>
    obtain ⟨-, -, ident, keyword⟩ := punctuation_kind found
    exact fun name => absurd name (other ident keyword)
  | case8 =>
    intro name
    rw [minus_eq] at name
    split_ifs at name
    · simp at name
    · rcases number_kind 1 rest with h | h | h <;> simp [h] at name
    · simp [malformed] at name
  | case9 =>
    intro name
    rcases number_kind 0 (c :: rest) with h | h | h <;> simp [h] at name
  | case10 => exact fun _ => .inr ‹_›
  | case11 =>
    intro name
    rcases other_kind c rest with h | h <;> simp [h] at name
  | _ => simp

/-! ## What stands before names -/

/-- A well-formed token before texts that begin alike is the same. -/
theorem first_alike {c : UInt8} (h : Alike z z') (size : (first c (u ++ z)).extra = u.length)
    (proper : (first c (u ++ z)).kind ≠ .error) : first c (u ++ z') = first c (u ++ z) := by
  have digits (second : z.head? = some 0x2e) :
      z.tail.head?.any isDigit = z'.tail.head?.any isDigit := by
    have plain : ∀ c, isIdentStart c = true → isDigit c = false := forall_byte (by decide +kernel)
    rcases h.dot second with same | ⟨name, name'⟩
    · rw [same]
    · rw [any_of_isIdentStart plain name, any_of_isIdentStart plain name']
  have reads := reads_first c
  generalize first c = read at reads size proper ⊢
  cases reads with
  | space =>
    have plain : ∀ c, isIdentStart c = true → isBlank c = false := forall_byte (by decide +kernel)
    simp only [h.takeWhile plain (Nat.le_of_eq size)]
  | newline =>
    cases u with
    | nil =>
      simp only [List.nil_append]
      rcases h.head with same | ⟨name, name'⟩
      · simp only [same]
      · have plain {w : Bytes} (name : w.head?.any isIdentStart = true) : w.head? ≠ some 0x0a := by
          intro lf
          rw [lf] at name
          contradiction
        rw [if_neg (plain name), if_neg (plain name')]
    | cons d rest => rfl
  | slash => exact slash_proper h size proper
  | string => exact string_proper (by rw [size, Nat.zero_add]) proper
  | quotedIdent => exact quotedIdent_proper size proper
  | char kind => rfl
  | minus =>
    have known : (u ++ z).takeWhile isIdentPart = infinity ∨ (u ++ z).head?.any isDigit = true := by
      by_contra none
      rw [not_or] at none
      rw [minus_eq, if_neg none.1, if_neg none.2] at proper
      exact proper rfl
    have stop : z.head?.any isIdentPart = false := by
      rcases known with word | digit
      · rw [minus_eq, if_pos word] at size
        exact stop_of_takeWhile ((congrArg List.length word).trans size)
      · obtain ⟨eq, first⟩ := minus_digit digit size
        rw [eq] at size
        have size : (number 1 (u ++ z)).extra + 1 = 1 + u.length := by omega
        exact number_stop first size
    exact minus_proper_congr size known (h.head_eq stop) h.signed fun _ => digits
  | number digit =>
    have first : (c :: u).head?.any isDigit = true := by simpa using digit
    have size : (number 0 ((c :: u) ++ z)).extra + 1 = 0 + (c :: u).length := by
      rw [List.cons_append, size, List.length_cons, Nat.zero_add]
    exact number_congr first size (h.head_eq (number_stop first size)) h.signed fun _ => digits
  | word =>
    have split := identLength_split size
    have stop := h.identLength_eq_zero split.2
    have length (w : Bytes) (none : identLength w = 0) : identLength (u ++ w) = u.length := by
      rw [identLength_append split.1, none, Nat.add_zero]
    simp only [length z' stop, length z split.2, List.take_left]
  | other => exact other_proper size proper

end Scan

/-- Whether a text is a word: names that dots and dashes join. -/
def isWord : Bytes → Bool
  | [] => false
  | c :: rest => isIdentStart c && Scan.identLength rest = rest.length

/-- Whether a text is a name of one part. -/
def isIdentifier (name : Bytes) : Bool := name.head?.any isIdentStart && name.all isIdentPart

namespace Token

variable {z z' : Bytes} {t : Token}

/-- The bytes of a token and what follows it. -/
theorem size_of_next {c : UInt8} {u : Bytes} (found : next? (t.text ++ z) = some (t, z))
    (text : t.text = c :: u) (more : z ≠ []) :
    (Scan.first c (u ++ z)).extra = u.length ∧ (Scan.first c (u ++ z)).kind = t.kind := by
  rw [text, List.cons_append, next?, Option.some.injEq, Prod.mk.injEq] at found
  obtain ⟨token, rest⟩ := found
  constructor
  · have whole := congrArg Token.text token
    rw [text] at whole
    have short := congrArg List.length (List.cons.inj whole).2
    have long := congrArg List.length rest
    have := List.length_pos_iff.mpr more
    simp only [List.length_take, List.length_drop, List.length_append] at short long
    omega
  · exact congrArg Token.kind token

/-- A well-formed token before texts that begin alike is the same. -/
theorem next?_alike (h : Scan.Alike z z') (found : next? (t.text ++ z) = some (t, z))
    (proper : t.kind ≠ .error) : next? (t.text ++ z') = some (t, z') := by
  by_cases none : z = []
  · subst none
    rcases h.head with same | ⟨name, -⟩
    · rw [List.head?_eq_none_iff.mp same.symm]
      exact found
    · contradiction
  · obtain ⟨c, u, text⟩ := List.exists_cons_of_ne_nil (next?_text found).2
    obtain ⟨size, kind⟩ := size_of_next found text none
    have same := Scan.first_alike h size (by rwa [kind])
    rw [text, List.cons_append, next?, Option.some.injEq, Prod.mk.injEq, size, List.take_left] at found
    rw [text, List.cons_append, next?, same, size, List.take_left, List.drop_left, found.1]

/-- A word is read up to where nothing goes on with it. -/
theorem next?_word {w : Bytes} (word : isWord w = true) (stop : Scan.identLength z = 0) :
    next? (w ++ z) = some (⟨Scan.wordKind w, w, none⟩, z) := by
  cases w with
  | nil => contradiction
  | cons c u =>
    rw [isWord, Bool.and_eq_true, decide_eq_true_eq] at word
    have size : Scan.identLength (u ++ z) = u.length := by
      rw [Scan.identLength_append word.2, stop, Nat.add_zero]
    rw [List.cons_append, next?, Scan.first_word word.1, size, List.take_left, List.drop_left]

theorem word_of_next (found : next? (t.text ++ z) = some (t, z))
    (start : t.text.head?.any isIdentStart = true) :
    isWord t.text = true ∧ Scan.identLength z = 0 := by
  obtain ⟨c, u, text⟩ := List.exists_cons_of_ne_nil (next?_text found).2
  rw [text, List.head?_cons, Option.any_some] at start
  rw [text, List.cons_append, next?, Scan.first_word start, Option.some.injEq, Prod.mk.injEq] at found
  have whole := Scan.identLength_le (u ++ z)
  have rest := congrArg List.length found.2
  simp only [List.length_drop, List.length_append] at rest whole
  obtain ⟨inside, stop⟩ := Scan.identLength_split (u := u) (z := z) (by omega)
  rw [text, isWord, start, inside]
  exact ⟨by simp, stop⟩

/-- A name in backquotes is read up to the second one. -/
theorem next?_quoted {name : Bytes} (h : isIdentifier name = true) :
    next? (0x60 :: (name ++ 0x60 :: z)) = some (⟨.ident, 0x60 :: (name ++ [0x60]), none⟩, z) := by
  rw [isIdentifier, Bool.and_eq_true] at h
  obtain ⟨start, letters⟩ := h
  have inside : (name ++ 0x60 :: z).takeWhile isIdentPart = name := by
    rw [Scan.takeWhile_stop (by rfl), List.takeWhile_eq_self_iff]
    exact List.all_eq_true.mp letters
  have first : isIdentStart ((name ++ 0x60 :: z).headD 0) = true := by
    cases name with
    | nil => contradiction
    | cons c rest => simpa using start
  have scan : Scan.first 0x60 (name ++ 0x60 :: z) = ⟨.ident, name.length + 1, none⟩ := by
    change Scan.quotedIdent (name ++ 0x60 :: z) = _
    simp only [Scan.quotedIdent, inside, first, List.drop_left, List.head?_cons]
    rfl
  have split : name ++ 0x60 :: z = (name ++ [0x60]) ++ z := by simp
  have size : (name ++ [(0x60 : UInt8)]).length = name.length + 1 := by simp
  rw [next?, scan, split, List.take_left' size, List.drop_left' size]

/-- A name that stands in the place of another: a word for a word, or a name in backquotes for
another one. -/
inductive Replaces : Token → Token → Prop
  | same (t : Token) : Replaces t t
  | word {t t' : Token} (old : isWord t.text = true) (new : isWord t'.text = true)
    (kind : t'.kind = Scan.wordKind t'.text) (clean : t'.error = none) : Replaces t t'
  | quoted {t : Token} {old new : Bytes} (text : t.text = 0x60 :: (old ++ [0x60]))
    (valid : isIdentifier new = true) : Replaces t ⟨.ident, 0x60 :: (new ++ [0x60]), none⟩

theorem next?_of_all {rest : List Token} (h : all (textOf (t :: rest)) = t :: rest) :
    next? (t.text ++ textOf rest) = some (t, textOf rest) ∧ all (textOf rest) = rest := by
  rw [textOf_cons] at h
  cases found : next? (t.text ++ textOf rest) with
  | none =>
    rw [next?_eq_none found] at h
    simp at h
  | some p =>
    obtain ⟨t', s⟩ := p
    rw [all_eq_cons found] at h
    obtain ⟨rfl, more⟩ := List.cons.inj h
    have after : s = textOf rest := by rw [← more, text_all]
    subst after
    exact ⟨rfl, more⟩

/-- Each token of a text is the first one of what stands from it on. -/
theorem next?_of_mem {s : Bytes} {before after : List Token} (h : all s = before ++ t :: after) :
    next? (t.text ++ textOf after) = some (t, textOf after) := by
  have read : all (textOf (before ++ t :: after)) = before ++ t :: after := by rw [← h, text_all]
  clear h
  induction before with
  | nil => exact (next?_of_all read).1
  | cons first rest ih => exact ih (next?_of_all read).2

/-- A token before texts that begin alike makes texts that do, too. Only a dot can stand alone before
a name. -/
theorem alike_cons (h : Scan.Alike z z') (found : next? (t.text ++ z) = some (t, z))
    (proper : t.kind ≠ .error) : Scan.Alike (t.text ++ z) (t.text ++ z') := by
  obtain ⟨c, u, text⟩ := List.exists_cons_of_ne_nil (next?_text found).2
  rw [text]
  refine ⟨.inl rfl, fun sign => ?_, fun dot => ?_⟩
  · cases u with
    | cons d rest => rfl
    | nil =>
      -- A sign alone is malformed.
      exfalso
      rw [text, List.cons_append, next?, Option.some.injEq, Prod.mk.injEq] at found
      have kind := congrArg Token.kind found.1
      rw [List.nil_append] at kind found
      rcases sign with minus | plus
      · obtain rfl : c = 0x2d := Option.some.inj minus
        have kind : (Scan.minus z).kind = t.kind := kind
        obtain ⟨more, takes⟩ := Scan.minus_takes fun e => proper (kind ▸ e)
        have alone := congrArg Token.text found.1
        rw [text] at alone
        rcases List.take_eq_nil_iff.mp (List.cons.inj alone).2 with none | none
        · have none : (Scan.minus z).extra = 0 := none
          omega
        · exact more none
      · obtain rfl : c = 0x2b := Option.some.inj plus
        rw [Scan.first_other (.inr rfl)] at kind
        exact proper kind.symm
  · cases u with
    | cons d rest => exact .inl rfl
    | nil => exact h.head

/-- The tokens of a text without malformed ones, in which names stand in the place of others. -/
theorem all_replaced {ts ts' : List Token} (replaced : List.Forall₂ Replaces ts ts')
    (read : all (textOf ts) = ts) (proper : ∀ t ∈ ts, t.kind ≠ .error) :
    all (textOf ts') = ts' ∧ Scan.Alike (textOf ts) (textOf ts') := by
  induction replaced with
  | nil => exact ⟨all_nil, .inl rfl, fun _ => rfl, fun _ => .inl rfl⟩
  | @cons t t' rest rest' first others ih =>
    obtain ⟨found, read⟩ := next?_of_all read
    obtain ⟨read', alike⟩ := ih read fun s mem => proper s (.tail _ mem)
    rw [textOf_cons, textOf_cons]
    cases first with
    | same =>
      have proper := proper t List.mem_cons_self
      rw [all_eq_cons (next?_alike alike found proper), read']
      exact ⟨rfl, alike_cons alike found proper⟩
    | word old new kind clean =>
      have start {w : Bytes} (word : isWord w = true) (z : Bytes) :
          (w ++ z).head?.any isIdentStart = true := by
        cases w with
        | nil => contradiction
        | cons c u => exact (Bool.and_eq_true_iff.mp word).1
      have stop := (word_of_next found (by simpa using start old [])).2
      have whole : t' = ⟨Scan.wordKind t'.text, t'.text, none⟩ := by rw [← kind, ← clean]
      have found' := next?_word new (alike.identLength_eq_zero stop)
      rw [← whole] at found'
      rw [all_eq_cons found', read']
      exact ⟨rfl, .of_names ⟨start old _, start new _⟩⟩
    | @quoted old new text valid =>
      have found' := next?_quoted (z := textOf rest') valid
      have split (name : Bytes) (z : Bytes) :
          0x60 :: (name ++ [0x60]) ++ z = (0x60 :: (name ++ 0x60 :: z) : Bytes) := by simp
      rw [text, split, split, all_eq_cons found', read']
      exact ⟨rfl, .inl rfl, nofun, nofun⟩

end Token

end AvroIdl
