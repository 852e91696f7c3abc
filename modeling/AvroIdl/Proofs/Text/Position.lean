import AvroIdl.Proofs.Resolution.Stamp
import AvroIdl.Proofs.Text.Rune
import AvroIdl.Proofs.Token.Integer
import AvroIdl.Text.Position

/-!
# Lines, columns and offsets

A line and a column lead to an offset through the lines and then through the characters of the text.
The way back counts the lines and the characters of the part before the offset. The two meet at the
offsets that stand behind whole characters of their line, `Position.Reached`:

* `Position.linesLength?_eq_some`, `Position.charsLength?_eq_some`: where the way through the lines
  and the way through the characters lead;
* `Position.ofLineColumn_eq_ok`: a line and a column lead to an offset just when they are those of
  the offset, and it can be reached;
* `Position.toOffset_ofOffset`: the same for positions as they are written.
-/

namespace AvroIdl

namespace Position

/-- A text after which a line begins. -/
def StartsLine (s : Bytes) : Prop := s = [] ∨ s.getLast? = some lineEnd

/-- An offset that stands behind whole characters of its line. -/
def Reached (text : Bytes) (offset : Nat) : Prop :=
  ∃ before line after : Bytes, text = before ++ (line ++ after) ∧
    before.length + line.length = offset ∧ StartsLine before ∧ lineEnd ∉ line ∧
    (line ++ after).Whole line.length

/-! ## Through the lines -/

theorem StartsLine.eq_nil {s : Bytes} (h : StartsLine s) (none : s.count lineEnd = 0) : s = [] := by
  refine h.resolve_right fun last => ?_
  exact List.count_eq_zero.mp none (List.mem_of_getLast? last)

theorem startsLine_append_cons {front before : Bytes} :
    StartsLine (front ++ lineEnd :: before) ↔ StartsLine before := by
  unfold StartsLine
  rw [List.getLast?_append_cons]
  cases before with
  | nil => simp
  | cons b rest => rw [List.getLast?_cons_of_ne_nil (by simp)]; simp

theorem idxOf?_append {b : UInt8} {front rest : Bytes} (first : b ∉ front) :
    (front ++ b :: rest).idxOf? b = some front.length := by
  rw [List.idxOf?_eq_some_iff]
  refine ⟨by simp, by simp, fun j hj => ?_⟩
  rw [List.getElem_append_left hj]
  exact fun eq => first (eq ▸ List.getElem_mem _)

theorem exists_of_idxOf? {b : UInt8} {s : Bytes} {i : Nat} (found : s.idxOf? b = some i) :
    ∃ front rest, s = front ++ b :: rest ∧ b ∉ front ∧ front.length = i := by
  have mem : b ∈ s := by
    by_contra absent
    rw [List.idxOf?_eq_none_iff.mpr absent] at found
    contradiction
  obtain ⟨front, rest, rfl, first⟩ := List.eq_append_cons_of_mem mem
  rw [idxOf?_append first] at found
  exact ⟨front, rest, rfl, first, Option.some.inj found⟩

theorem linesLength?_append {front rest : Bytes} (first : lineEnd ∉ front) (n : Nat) :
    linesLength? (n + 1) (front ++ lineEnd :: rest) =
      (linesLength? n rest).map (front.length + 1 + ·) := by
  have behind : (front ++ lineEnd :: rest).drop (front.length + 1) = rest := by
    rw [List.drop_append, List.drop_of_length_le (by omega)]
    simp
  simp only [linesLength?, idxOf?_append first, Option.bind_eq_bind, Option.bind_some, behind]
  cases linesLength? n rest <;> rfl

/-- So many lines are the part of the text that has so many line ends, the last one at its end. -/
theorem linesLength?_eq_some {n : Nat} {text : Bytes} {start : Nat} :
    linesLength? n text = some start ↔
      ∃ before rest, text = before ++ rest ∧ before.length = start ∧ StartsLine before ∧
        before.count lineEnd = n := by
  induction n generalizing text start with
  | zero =>
    constructor
    · intro h
      obtain rfl : 0 = start := Option.some.inj h
      exact ⟨[], text, rfl, rfl, .inl rfl, rfl⟩
    · rintro ⟨before, rest, rfl, rfl, starts, none⟩
      rw [starts.eq_nil none]
      rfl
  | succ n ih =>
    constructor
    · intro h
      cases found : text.idxOf? lineEnd with
      | none => simp [linesLength?, found] at h
      | some i =>
        obtain ⟨front, rest, rfl, first, -⟩ := exists_of_idxOf? found
        rw [linesLength?_append first, Option.map_eq_some_iff] at h
        obtain ⟨more, h, rfl⟩ := h
        obtain ⟨before, rest, rfl, rfl, starts, count⟩ := ih.mp h
        refine ⟨front ++ lineEnd :: before, rest, by simp, ?_, startsLine_append_cons.mpr starts, ?_⟩
        · simp only [List.length_append, List.length_cons]
          omega
        · rw [List.count_append, List.count_eq_zero.mpr first, List.count_cons_self, count,
            Nat.zero_add]
    · rintro ⟨before, rest, rfl, rfl, starts, count⟩
      have mem : lineEnd ∈ before := List.count_pos_iff.mp (by omega)
      obtain ⟨front, behind, rfl, first⟩ := List.eq_append_cons_of_mem mem
      rw [List.count_append, List.count_eq_zero.mpr first, List.count_cons_self, Nat.zero_add] at count
      have go := ih.mpr ⟨behind, rest, rfl, rfl, startsLine_append_cons.mp starts, by omega⟩
      rw [List.append_assoc, List.cons_append, linesLength?_append first, go]
      simp only [Option.map_some, List.length_append, List.length_cons]
      congr 1
      omega

/-! ## Through the characters of a line -/

/-- So many characters are whole characters of one line. -/
theorem charsLength?_eq_some {k : Nat} {s : Bytes} {n : Nat} :
    charsLength? k s = some n ↔
      s.Whole n ∧ lineEnd ∉ s.take n ∧ (Bytes.runes (s.take n)).length = k := by
  -- A line end is no part of a longer character.
  have inside (c : UInt8) (rest : Bytes) : lineEnd ∉ rest.take (Rune.read c rest).2 := fun mem =>
    absurd (Rune.le_of_mem_take mem) (by decide)
  constructor
  · intro h
    induction k generalizing s n with
    | zero =>
      obtain rfl : 0 = n := by simpa [charsLength?] using h
      exact ⟨.none s, by simp, rfl⟩
    | succ k ih =>
      cases s with
      | nil => simp [charsLength?] at h
      | cons c rest =>
        rw [charsLength?] at h
        split_ifs at h with ends
        simp only [Option.bind_eq_bind, Option.bind_eq_some_iff, Option.some.injEq] at h
        obtain ⟨more, h, rfl⟩ := h
        obtain ⟨whole, plain, count⟩ := ih h
        refine ⟨.next whole, ?_, ?_⟩
        · rw [Bytes.take_next, List.mem_cons, List.mem_append]
          rintro (same | mem | mem)
          · exact ends same.symm
          · exact inside c rest mem
          · exact plain mem
        · rw [Bytes.runes_take, List.length_cons, count]
  · rintro ⟨whole, plain, rfl⟩
    induction whole with
    | none s => simp [Bytes.runes, Bytes.runesFrom, charsLength?]
    | @next c rest n _ ih =>
      rw [Bytes.take_next, List.mem_cons, List.mem_append, not_or, not_or] at plain
      rw [Bytes.runes_take, List.length_cons, charsLength?, if_neg (Ne.symm plain.1)]
      dsimp only
      rw [ih plain.2.2]
      rfl

/-! ## Back from an offset -/

/-- The line and the column of an offset, from the line ends before it and the characters behind the
last of them. -/
theorem ofOffset_eq {before line : Bytes} (starts : StartsLine before) (plain : lineEnd ∉ line)
    (after : Bytes) :
    ofOffset (before ++ (line ++ after)) (before.length + line.length) =
      (before.count lineEnd + 1, (Bytes.runes line).length + 1) := by
  have part : (before ++ (line ++ after)).take (before.length + line.length) = before ++ line := by
    rw [← List.append_assoc, List.take_left' List.length_append]
  have last : ((before ++ line).reverse.takeWhile (· ≠ lineEnd)).reverse = line := by
    rw [List.reverse_append, List.takeWhile_append_of_pos]
    · rcases starts with rfl | last
      · simp
      · obtain ⟨front, rfl⟩ := List.getLast?_eq_some_iff.mp last
        simp
    · intro b mem
      have other : b ≠ lineEnd := fun same => plain (same ▸ List.mem_reverse.mp mem)
      simpa using other
  have count : (before ++ line).count lineEnd = before.count lineEnd := by
    rw [List.count_append, List.count_eq_zero.mpr plain, Nat.add_zero]
  simp only [ofOffset, part, last, count]

/-- A line and a column lead to the offsets that are reached and have this line and column. -/
theorem ofLineColumn_eq_ok {text position : Bytes} {line column offset : Nat} (one : 1 ≤ line)
    (one' : 1 ≤ column) :
    ofLineColumn text position line column = .ok offset ↔
      Reached text offset ∧ ofOffset text offset = (line, column) := by
  constructor
  · intro h
    rw [ofLineColumn] at h
    split at h
    · contradiction
    next start lines =>
      split at h
      · contradiction
      next length chars =>
        obtain ⟨before, rest, rfl, rfl, starts, count⟩ := linesLength?_eq_some.mp lines
        rw [List.drop_left] at chars
        obtain ⟨whole, plain, runes⟩ := charsLength?_eq_some.mp chars
        obtain rfl : before.length + length = offset := by simpa using h
        have size : (rest.take length).length = length := by
          rw [List.length_take, Nat.min_eq_left whole.le_length]
        have back := ofOffset_eq starts plain (rest.drop length)
        rw [List.take_append_drop, size, count, runes] at back
        refine ⟨⟨before, rest.take length, rest.drop length, ?_, ?_, starts, plain, ?_⟩, ?_⟩
        · rw [List.take_append_drop]
        · rw [size]
        · rwa [List.take_append_drop, size]
        · rw [back, Nat.sub_add_cancel one, Nat.sub_add_cancel one']
  · rintro ⟨⟨before, chars, after, rfl, rfl, starts, plain, whole⟩, place⟩
    rw [ofOffset_eq starts plain, Prod.mk.injEq] at place
    obtain ⟨rfl, rfl⟩ := place
    have lines : linesLength? (before.count lineEnd) (before ++ (chars ++ after)) =
        some before.length := linesLength?_eq_some.mpr ⟨before, _, rfl, rfl, starts, rfl⟩
    have length : charsLength? (Bytes.runes chars).length (chars ++ after) = some chars.length :=
      charsLength?_eq_some.mpr ⟨whole, by rwa [List.take_left], by rw [List.take_left]⟩
    simp only [ofLineColumn, Nat.add_sub_cancel, lines, List.drop_left, length]

/-- Lines and columns are no larger than the text. -/
theorem ofOffset_le (text : Bytes) (offset : Nat) :
    (ofOffset text offset).1 ≤ text.length + 1 ∧ (ofOffset text offset).2 ≤ text.length + 1 := by
  have part : (text.take offset).length ≤ text.length := List.length_take_le' ..
  constructor
  · exact Nat.succ_le_succ (Nat.le_trans List.count_le_length part)
  · refine Nat.succ_le_succ (Nat.le_trans (Bytes.length_runesFrom_le 0 _) ?_)
    rw [List.length_reverse]
    refine Nat.le_trans (List.takeWhile_sublist _).length_le ?_
    rwa [List.length_reverse]

/-! ## Positions as they are written -/

/-- A number as it is written: decimal digits, with a plus sign before them or none. -/
inductive Numeral : Bytes → Nat → Prop
  | plain {s : Bytes} {n : Nat} (spells : IntegerForm.decimal.Spells s n) : Numeral s n
  | signed {s : Bytes} {n : Nat} (spells : IntegerForm.decimal.Spells s n) : Numeral (0x2b :: s) n

/-- A position that is written as a line and a column, with a colon between them. -/
def Writes (position : Bytes) (line column : Nat) : Prop :=
  ∃ l c, position = l ++ 0x3a :: c ∧ Numeral l line ∧ Numeral c column

/-- A line and a column as they are shown. -/
def write (place : Nat × Nat) : Bytes :=
  Bytes.join [Bytes.ofNat place.1, ":", Bytes.ofNat place.2]

theorem spells_of_digits? {s : Bytes} {n : Nat} (h : Bytes.digits? s = some n) :
    IntegerForm.decimal.Spells s n := by
  by_cases bad : (s.isEmpty || !s.all isDigit) = true
  · rw [Bytes.digits?, if_pos bad] at h
    contradiction
  · obtain ⟨some, all⟩ : s ≠ [] ∧ ∀ c ∈ s, isDigit c = true := by simpa using bad
    rw [IntegerForm.digits?_eq some all] at h
    exact Option.some.inj h ▸ .decimal some all

theorem Numeral.integer?_eq {s : Bytes} {n : Nat} (h : Numeral s n) :
    Bytes.integer? s = some (n : Int) := by
  cases h with
  | plain spells => simpa using (IntegerForm.Denotes.unsigned spells).integer?_eq
  | signed spells => simp [Bytes.integer?, Bytes.signed?, spells.digits?_eq]

theorem Numeral.number?_eq {s : Bytes} {n : Nat} (h : Numeral s n) :
    number? s = if 1 ≤ n ∧ n < 9223372036854775808 then some n else none := by
  have fits : fitsSigned 64 (n : Int) = decide (n < 9223372036854775808) := by
    simp [fitsSigned]
  rw [number?, h.integer?_eq, Option.filter_some, fits]
  by_cases small : n < 9223372036854775808 <;> simp [small]

/-- Only numerals are read as the number of a line or a column. -/
theorem numeral_of_number? {s : Bytes} {n : Nat} (h : number? s = some n) : Numeral s n := by
  simp only [number?, Option.bind_eq_bind, Option.bind_eq_some_iff, Option.filter_eq_some_iff] at h
  obtain ⟨m, ⟨read, -⟩, h⟩ := h
  split_ifs at h with positive
  obtain rfl : m.toNat = n := by simpa using h
  cases s with
  | nil => contradiction
  | cons c rest =>
    rw [Bytes.integer?, Bytes.signed?] at read
    split_ifs at read with minus plus
    · obtain ⟨k, -, rfl⟩ : ∃ k : Nat, Bytes.digits? rest = some k ∧ -(k : Int) = m := by
        simpa [Option.bind_eq_some_iff] using read
      omega
    · obtain ⟨k, digits, rfl⟩ : ∃ k : Nat, Bytes.digits? rest = some k ∧ (k : Int) = m := by
        simpa [Option.bind_eq_some_iff] using read
      rw [plus]
      exact .signed (spells_of_digits? digits)
    · obtain ⟨k, digits, rfl⟩ : ∃ k : Nat, Bytes.digits? (c :: rest) = some k ∧ (k : Int) = m := by
        simpa [Option.bind_eq_some_iff] using read
      exact .plain (spells_of_digits? digits)

theorem Numeral.colon_not_mem {s : Bytes} {n : Nat} (h : Numeral s n) : 0x3a ∉ s := by
  have digits {s : Bytes} {n : Nat} (spells : IntegerForm.decimal.Spells s n) : 0x3a ∉ s := by
    cases spells with
    | decimal _ all => exact fun mem => absurd (all _ mem) (by decide)
  cases h with
  | plain spells => exact digits spells
  | signed spells => simpa using digits spells

theorem toOffset_eq_ok {text l c : Bytes} {offset : Nat} (first : 0x3a ∉ l) :
    toOffset text (l ++ 0x3a :: c) = .ok offset ↔
      ∃ line column, number? l = some line ∧ number? c = some column ∧
        ofLineColumn text (l ++ 0x3a :: c) line column = .ok offset := by
  have behind : (l ++ 0x3a :: c).drop (l.length + 1) = c := by
    rw [List.drop_append, List.drop_of_length_le (by omega)]
    simp
  rw [toOffset, show Bytes.ofChar ':' = 0x3a by decide, idxOf?_append first]
  simp only [List.take_left, behind]
  cases number? l <;> cases number? c <;> simp

/-! ## Numbers as they are shown -/

theorem ofNat_eq (n : Nat) :
    Bytes.ofNat n = (if n < 10 then [] else Bytes.ofNat (n / 10)) ++ [UInt8.ofNat (48 + n % 10)] := by
  have digit {d : Nat} (small : d < 10) :
      String.utf8EncodeChar d.digitChar = [UInt8.ofNat (48 + d)] := by
    have all : ∀ d : Fin 10, String.utf8EncodeChar d.val.digitChar = [UInt8.ofNat (48 + d.val)] := by
      decide
    exact all ⟨d, small⟩
  have bytes (n : Nat) : Bytes.ofNat n = (Nat.toDigits 10 n).flatMap String.utf8EncodeChar := by
    rw [Bytes.ofNat, Bytes.ofString, String.toUTF8_eq_toByteArray, Nat.repr_eq_ofList_toDigits,
      String.toByteArray_ofList, List.utf8Encode, List.data_toByteArray]
  rw [bytes n, bytes (n / 10), Nat.toDigits_eq_if (by decide)]
  split_ifs with small
  · simp [digit small, Nat.mod_eq_of_lt small]
  · simp [digit (Nat.mod_lt n (by decide))]

theorem numeral_ofNat (n : Nat) : numeral 10 (Bytes.ofNat n) = n := by
  have value : ∀ d : Fin 10, (hexValue? (UInt8.ofNat (48 + d.val))).getD 0 = d.val := by decide
  induction n using Nat.strongRecOn with
  | ind n ih =>
    have last : (hexValue? (UInt8.ofNat (48 + n % 10))).getD 0 = n % 10 :=
      value ⟨n % 10, Nat.mod_lt n (by decide)⟩
    rw [ofNat_eq, numeral_concat, last]
    split_ifs with small
    · simp [numeral, Nat.mod_eq_of_lt small]
    · rw [ih (n / 10) (by omega)]
      omega

theorem spells_ofNat (n : Nat) : IntegerForm.decimal.Spells (Bytes.ofNat n) n := by
  have some : Bytes.ofNat n ≠ [] := by rw [ofNat_eq]; simp
  have spells := IntegerForm.Spells.decimal some fun _ mem => Bytes.isDigit_of_mem_ofNat mem
  rwa [numeral_ofNat] at spells

theorem writes_write (place : Nat × Nat) : Writes (write place) place.1 place.2 := by
  refine ⟨_, _, ?_, .plain (spells_ofNat place.1), .plain (spells_ofNat place.2)⟩
  rw [write, Bytes.join, show Bytes.ofString ":" = [0x3a] by decide]
  simp

/-- Lines and columns are inverse to offsets. Whatever is written as a line and a column leads to an
offset just when the offset is reached through whole characters and has this line and this column.
Nothing else with a colon is accepted, and every such offset is found from its line and column. -/
theorem toOffset_ofOffset {text : Bytes} (small : text.length ≤ maxOffset) :
    (∀ position line column, Writes position line column → ∀ offset,
      toOffset text position = .ok offset ↔
        Reached text offset ∧ ofOffset text offset = (line, column)) ∧
    (∀ position offset, 0x3a ∈ position → toOffset text position = .ok offset →
      ∃ line column, Writes position line column) ∧
    ∀ offset, Reached text offset → toOffset text (write (ofOffset text offset)) = .ok offset := by
  have exact : ∀ position line column, Writes position line column → ∀ offset,
      toOffset text position = .ok offset ↔
        Reached text offset ∧ ofOffset text offset = (line, column) := by
    rintro _ line column ⟨l, c, rfl, hl, hc⟩ offset
    simp only [toOffset_eq_ok hl.colon_not_mem, hl.number?_eq, hc.number?_eq]
    constructor
    · rintro ⟨line, column, read, read', found⟩
      split_ifs at read read' with one one'
      obtain rfl := Option.some.inj read
      obtain rfl := Option.some.inj read'
      exact (ofLineColumn_eq_ok one.1 one'.1).mp found
    · intro place
      obtain ⟨one, one'⟩ : 1 ≤ line ∧ 1 ≤ column := by
        obtain ⟨rfl, rfl⟩ := Prod.mk.inj place.2
        exact ⟨Nat.le_add_left .., Nat.le_add_left ..⟩
      have large := ofOffset_le text offset
      rw [place.2] at large
      rw [maxOffset] at small
      exact ⟨line, column, if_pos ⟨one, by omega⟩, if_pos ⟨one', by omega⟩,
        (ofLineColumn_eq_ok one one').mpr place⟩
  refine ⟨exact, fun position offset colon accepted => ?_, fun offset reached => ?_⟩
  · obtain ⟨l, c, rfl, first⟩ := List.eq_append_cons_of_mem colon
    obtain ⟨line, column, hl, hc, -⟩ := (toOffset_eq_ok first).mp accepted
    exact ⟨line, column, l, c, rfl, numeral_of_number? hl, numeral_of_number? hc⟩
  · exact (exact _ _ _ (writes_write _) offset).mpr ⟨reached, rfl⟩

/-- Behind a character of two bytes and two stray bytes, of which the first begins a character that does
not go on. -/
theorem toOffset_ofOffset_stray :
    let text : Bytes := [0x61, 0x0a, 0xc3, 0xa9, 0xc3, 0xff, 0x66]
    text.length ≤ maxOffset ∧ Reached text 6 ∧ ofOffset text 6 = (2, 4) ∧
      toOffset text (write (2, 4)) = .ok 6 ∧ toOffset text "+2:04" = .ok 6 := by
  intro text
  have small : text.length ≤ maxOffset := by decide
  have place : ofOffset text 6 = (2, 4) := by decide
  have chars : charsLength? 3 [0xc3, 0xa9, 0xc3, 0xff, 0x66] = some 4 := by decide
  have reached : Reached text 6 :=
    ⟨[0x61, 0x0a], [0xc3, 0xa9, 0xc3, 0xff], [0x66], rfl, rfl, .inr rfl, by decide,
      (charsLength?_eq_some.mp chars).1⟩
  have written : Writes "+2:04" 2 4 :=
    ⟨[0x2b, 0x32], [0x30, 0x34], rfl,
      .signed (.decimal (by decide) (List.all_eq_true.mp (by decide))),
      .plain (.decimal (by decide) (List.all_eq_true.mp (by decide)))⟩
  obtain ⟨exact, -, back⟩ := toOffset_ofOffset small
  exact ⟨small, reached, place, place ▸ back 6 reached,
    (exact _ _ _ written 6).mpr ⟨reached, place⟩⟩

end Position

end AvroIdl
