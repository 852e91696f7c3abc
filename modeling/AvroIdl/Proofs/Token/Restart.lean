import AvroIdl.Proofs.Token.Locality
import Mathlib.Data.List.Chain

/-!
# Cutting a text into tokens, from any boundary

No scanner counts a byte that is not there: `Scan.extra_le`, with one lemma for each class of
tokens. So every token is as long as its scanner says, and the tokens of a text, listed with their
offsets, are pieces that cover it (`Token.Pieces`). Reading from the offset of a token lists the
tokens from there on, `Token.listFrom_boundary`.
-/

namespace AvroIdl

namespace Scan

/-! ## No scanner reads past the end -/

theorem commentEnd?_le {s : Bytes} {n : Nat} (h : commentEnd? s = some n) : n ≤ s.length := by
  fun_induction commentEnd? s generalizing n with
  | case1 => contradiction
  | case2 c rest ends =>
    obtain rfl : 2 = n := by simpa using h
    cases rest with
    | nil => simp at ends
    | cons => simp
  | case3 c rest _ ih =>
    obtain ⟨k, found, rfl⟩ := Option.map_eq_some_iff.mp h
    exact Nat.succ_le_succ (ih found)

theorem slash_le (s : Bytes) : (slash s).extra ≤ s.length := by
  fun_cases slash s with
  | case1 => simp [malformed]
  | case2 rest =>
    have := (rest.takeWhile_prefix fun c => !isLineEnd c).length_le
    simp only [List.length_cons]
    omega
  | case3 rest n found =>
    have := commentEnd?_le found
    simp only [List.length_cons]
    omega
  | case4 rest => simp [malformed, Nat.add_comm]
  | case5 => simp [malformed]

theorem string_le (taken : Nat) (escaped : Bool) (s : Bytes) :
    (string taken escaped s).extra ≤ taken + s.length := by
  fun_induction string taken escaped s with
  | case1 | case2 => simp [malformed]
  | case3 | case4 | case6 =>
    simp only [List.length_cons]
    omega
  | case5 => simp

theorem quotedIdent_le (s : Bytes) : (quotedIdent s).extra ≤ s.length := by
  have part := (s.takeWhile_prefix isIdentPart).length_le
  simp only [quotedIdent]
  split_ifs with quoted
  · -- The closing quote is a byte after the identifier.
    simp only [Bool.and_eq_true, decide_eq_true_eq] at quoted
    obtain ⟨rest, more⟩ := List.head?_eq_some_iff.mp quoted.2
    have := congrArg List.length more
    simp only [List.length_drop, List.length_cons] at this
    simp only
    omega
  · exact part

theorem fractionLength_le (s : Bytes) : fractionLength s ≤ s.length := by
  fun_cases fractionLength s with
  | case1 c rest =>
    have := digitCount_le rest
    simp only [List.length_cons]
    omega
  | case2 | case3 => simp

theorem exponentLength_le (s : Bytes) : exponentLength s ≤ s.length := by
  fun_cases exponentLength s with
  | case1 c rest sign digits found =>
    have count : digits ≤ rest.length - sign := by simpa [digits] using digitCount_le (rest.drop sign)
    have some : digits ≠ 0 := by simp_all
    simp only [List.length_cons]
    omega
  | case2 | case3 => simp

theorem suffixLength_le (s : Bytes) : suffixLength s ≤ s.length := by
  fun_cases suffixLength s <;> simp

theorem decimalNumber_le (s : Bytes) : (decimalNumber s).2 ≤ s.length := by
  simp only [decimalNumber]
  generalize hw : digitCount s = whole
  have count : whole ≤ s.length := hw ▸ digitCount_le s
  have fraction := fractionLength_le (s.drop whole)
  generalize fractionLength (s.drop whole) = point at fraction ⊢
  have exponent := exponentLength_le (s.drop (whole + point))
  generalize exponentLength (s.drop (whole + point)) = power at exponent ⊢
  have suffix := suffixLength_le (s.drop (whole + point + power))
  simp only [List.length_drop] at fraction exponent suffix
  omega

theorem unsignedNumber_le (s : Bytes) : (unsignedNumber s).2 ≤ s.length := by
  fun_cases unsignedNumber s with
  | case1 z x rest =>
    have := (rest.takeWhile_prefix isHexDigit).length_le
    simp only [List.length_cons]
    omega
  | case2 | case3 => exact decimalNumber_le _

theorem number_le (sign : Nat) (s : Bytes) : (number sign s).extra ≤ sign + s.length - 1 := by
  have length := unsignedNumber_le s
  have trailing := ((s.drop (unsignedNumber s).2).takeWhile_sublist isIdentPart).length_le
  rw [List.length_drop] at trailing
  simp only [number]
  split_ifs
  · simp only [malformed]
    omega
  · simp only
    omega

theorem minus_le (s : Bytes) : (minus s).extra ≤ s.length := by
  unfold minus
  split_ifs with infinite
  · rw [Bool.and_eq_true] at infinite
    exact (List.isPrefixOf_iff_prefix.mp infinite.1).length_le
  · have := number_le 1 s
    omega
  · simp [malformed]

theorem rune_le (lead : UInt8) (rest : Bytes) : (Rune.read lead rest).2 ≤ rest.length := by
  fun_cases Rune.read lead rest <;> simp

theorem other_le (c : UInt8) (rest : Bytes) : (other c rest).extra ≤ rest.length := by
  have rune := rune_le c rest
  unfold other
  split
  · simp [malformed]
  next code extra read =>
    rw [read] at rune
    split_ifs <;> exact rune

/-- No scanner counts a byte that is not there. -/
theorem extra_le (c : UInt8) (rest : Bytes) : (first c rest).extra ≤ rest.length := by
  fun_cases first c rest with
  | case1 => exact (rest.takeWhile_prefix isBlank).length_le
  | case2 | case7 => simp
  | case3 =>
    cases rest with
    | nil => simp
    | cons => simp only [List.length_cons]; split_ifs <;> omega
  | case4 => exact slash_le rest
  | case5 => simpa using string_le 0 false rest
  | case6 => exact quotedIdent_le rest
  | case8 => exact minus_le rest
  | case9 => simpa using number_le 0 (c :: rest)
  | case10 => exact identLength_le rest
  | case11 => exact other_le c rest

end Scan

namespace Token

/-! ## Offsets -/

theorem located_append (start : Nat) (as bs : List Token) :
    located start (as ++ bs) = located start as ++ located (start + (textOf as).length) bs := by
  induction as generalizing start with
  | nil => rfl
  | cons t rest ih => simp [located, ih, Nat.add_assoc]

theorem map_located (start : Nat) (ts : List Token) : (located start ts).map Prod.snd = ts := by
  induction ts generalizing start with
  | nil => rfl
  | cons t rest ih => simp [located, ih]

/-- A token with its offset stands between the tokens before it and those after it. -/
theorem split_of_mem_located {start : Nat} {ts : List Token} {p : Nat × Token}
    (h : p ∈ located start ts) :
    ∃ as bs, ts = as ++ p.2 :: bs ∧ p.1 = start + (textOf as).length := by
  induction ts generalizing start with
  | nil => simp [located] at h
  | cons t rest ih =>
    rcases List.mem_cons.mp h with rfl | later
    · exact ⟨[], rest, rfl, rfl⟩
    · obtain ⟨as, bs, rfl, place⟩ := ih later
      exact ⟨t :: as, bs, rfl, by simp [place, Nat.add_assoc]⟩

theorem located_lt {start : Nat} {ts : List Token} (some : ∀ t ∈ ts, t.text ≠ [])
    {p : Nat × Token} (h : p ∈ located start ts) : p.1 < start + (textOf ts).length := by
  obtain ⟨as, bs, rfl, place⟩ := split_of_mem_located h
  have := List.length_pos_iff.mpr (some p.2 (by simp))
  simp only [textOf_append, textOf_cons, List.length_append]
  omega

theorem isChain_located (start : Nat) (ts : List Token) :
    (located start ts).IsChain fun p q => q.1 = p.1 + p.2.text.length := by
  induction ts generalizing start with
  | nil => exact .nil
  | cons t rest ih =>
    cases rest with
    | nil => exact .singleton _
    | cons u more => exact .cons_cons rfl (ih _)

theorem length_le_textOf {ts : List Token} (some : ∀ t ∈ ts, t.text ≠ []) :
    ts.length ≤ (textOf ts).length := by
  induction ts with
  | nil => simp
  | cons t rest ih =>
    have := List.length_pos_iff.mpr (some t (by simp))
    have := ih fun u mem => some u (List.mem_cons_of_mem t mem)
    simp only [List.length_cons, textOf_cons, List.length_append]
    omega

/-- A token is as long as its scanner says. -/
theorem next?_length {c : UInt8} {s rest : Bytes} {t : Token} (h : next? (c :: s) = some (t, rest)) :
    t.text.length = 1 + (Scan.first c s).extra := by
  simp only [next?, Option.some.injEq, Prod.mk.injEq] at h
  obtain ⟨rfl, -⟩ := h
  have := Scan.extra_le c s
  simp only [List.length_cons, List.length_take]
  omega

/-! ## Reading from an offset -/

/-- The tokens of a text from an offset on, each with its own offset. -/
def listFrom (limit : Nat) (s : Bytes) (offset : Nat) : List (Nat × Token) :=
  let (start, tokens) := fromOffset s offset limit
  located start tokens

/-- Tokens with offsets that cut a text into pieces. -/
structure Pieces (s : Bytes) (ps : List (Nat × Token)) : Prop where
  /-- The first piece starts where the text does. -/
  start : ∀ p ∈ ps.head?, p.1 = 0
  nonempty : ∀ p ∈ ps, p.2.text ≠ []
  /-- A piece starts where the one before it ended. -/
  adjacent : ps.IsChain fun p q => q.1 = p.1 + p.2.text.length
  spelled : textOf (ps.map Prod.snd) = s
  /-- A piece is all that its scanner counts: the end of the text cuts nothing off. -/
  scanned : ∀ p ∈ ps, ∃ c rest, s.drop p.1 = c :: rest ∧
    p.2.text.length = 1 + (Scan.first c rest).extra
  finite : ps.length ≤ s.length

variable {limit : Nat} {s : Bytes}

theorem listFrom_eq (fits : s.length ≤ limit) {offset : Nat} (inside : offset ≤ s.length) :
    listFrom limit s offset = located offset (all (s.drop offset)) := by
  simp [listFrom, fromOffset, Nat.not_lt.mpr fits, Nat.min_eq_left inside]

theorem listFrom_zero (fits : s.length ≤ limit) : listFrom limit s 0 = located 0 (all s) := by
  simpa using listFrom_eq fits s.length.zero_le

theorem scanned_of_mem {p : Nat × Token} (h : p ∈ located 0 (all s)) :
    ∃ c rest, s.drop p.1 = c :: rest ∧ p.2.text.length = 1 + (Scan.first c rest).extra := by
  obtain ⟨as, bs, split, place⟩ := split_of_mem_located h
  have here : all (s.drop p.1) = p.2 :: bs := by
    rw [place, Nat.zero_add]
    exact all_drop split
  cases found : s.drop p.1 with
  | nil => simp [found] at here
  | cons c rest =>
    refine ⟨c, rest, rfl, ?_⟩
    cases read : next? (c :: rest) with
    | none => simp [next?] at read
    | some q =>
      obtain ⟨t, more⟩ := q
      rw [found, all_eq_cons read] at here
      obtain ⟨rfl, -⟩ := List.cons.inj here
      exact next?_length read

theorem pieces_listFrom (fits : s.length ≤ limit) : Pieces s (listFrom limit s 0) := by
  rw [listFrom_zero fits]
  have some : ∀ t ∈ all s, t.text ≠ [] := fun t => text_ne_nil
  refine ⟨?_, ?_, isChain_located 0 (all s), ?_, fun p => scanned_of_mem, ?_⟩
  · cases all s <;> simp [located]
  · intro p mem
    exact some p.2 (map_located 0 (all s) ▸ List.mem_map_of_mem mem)
  · rw [map_located, text_all]
  · have count := length_le_textOf some
    rwa [text_all, ← map_located 0 (all s), List.length_map] at count

/-- What is read from the end of some tokens on is the rest of the tokens. -/
theorem listFrom_split (fits : s.length ≤ limit) {as bs : List Token} (split : all s = as ++ bs) :
    listFrom limit s (textOf as).length =
      (listFrom limit s 0).dropWhile (·.1 < (textOf as).length) := by
  have whole : (textOf as).length ≤ s.length := by
    rw [← text_all s, split, textOf_append, List.length_append]
    omega
  have some : ∀ t ∈ as, t.text ≠ [] := fun t mem => text_ne_nil (s := s) (by simp [split, mem])
  have before : ∀ p ∈ located 0 as, decide (p.1 < (textOf as).length) = true := by
    intro p mem
    simpa using located_lt some mem
  rw [listFrom_eq fits whole, all_drop split, listFrom_zero fits, split, located_append,
    List.dropWhile_append_of_pos before, Nat.zero_add]
  cases bs <;> simp [located]

/-- The tokens of a text cut it into pieces, and reading from a boundary gives the pieces that
start there or later. -/
theorem listFrom_boundary (fits : s.length ≤ limit) :
    Pieces s (listFrom limit s 0) ∧
    ∀ o, (o = s.length ∨ ∃ t, (o, t) ∈ listFrom limit s 0) →
      listFrom limit s o = (listFrom limit s 0).dropWhile (·.1 < o) := by
  refine ⟨pieces_listFrom fits, ?_⟩
  rintro o (rfl | ⟨t, mem⟩)
  · have last := listFrom_split fits (List.append_nil (all s)).symm
    rwa [text_all] at last
  · rw [listFrom_zero fits] at mem
    obtain ⟨as, bs, split, rfl⟩ := split_of_mem_located mem
    have here := listFrom_split fits split
    rwa [← Nat.zero_add (textOf as).length] at here

/-- Reading again at the offset of a stray byte of a character that was cut off. -/
theorem listFrom_boundary_stray :
    listFrom maxOffset [0x2d, 0xe2, 0x82] 1 =
      (listFrom maxOffset [0x2d, 0xe2, 0x82] 0).dropWhile (·.1 < 1) :=
  (listFrom_boundary (s := [0x2d, 0xe2, 0x82]) (by decide)).2 1
    (.inr ⟨⟨.error, [0xe2], some .invalidUtf8⟩, by decide +kernel⟩)

end Token

end AvroIdl
