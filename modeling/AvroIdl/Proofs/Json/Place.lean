import AvroIdl.Json.Value
import Mathlib.Data.List.Basic

/-!
# Values at their places

A value that is read from a text lies where it was read: it starts before all that is in it, and
what is in it follows each other. `Json.lies_read?` says so of every text.
-/

namespace AvroIdl

namespace Json

/-- The values in a value. -/
def parts : Json → List Json
  | array _ items => items
  | object _ members => members.map (·.2)
  | _ => []

mutual

/-- A value starts between two offsets, and what is in it lies between its start and the end. -/
inductive Lies : Nat → Nat → Json → Prop where
  | intro {low high : Nat} {v : Json} (low_le : low ≤ v.start) (lt_high : v.start < high)
    (parts : Strung (v.start + 1) high v.parts) : Lies low high v

/-- Values that follow each other between two offsets. -/
inductive Strung : Nat → Nat → List Json → Prop where
  | nil {low high : Nat} : Strung low high []
  | cons {low mid high : Nat} {v : Json} {rest : List Json} (first : Lies low mid v) (le : mid ≤ high)
    (others : Strung mid high rest) : Strung low high (v :: rest)

end

variable {low mid high : Nat} {v w : Json} {vs : List Json}

theorem Lies.bounds (h : Lies low high v) : low ≤ v.start ∧ v.start < high := by
  obtain ⟨low_le, lt_high, -⟩ := h
  exact ⟨low_le, lt_high⟩

theorem Lies.low_mono (h : Lies mid high v) (le : low ≤ mid) : Lies low high v := by
  obtain ⟨low_le, lt_high, parts⟩ := h
  exact ⟨Nat.le_trans le low_le, lt_high, parts⟩

theorem Strung.low_mono (h : Strung mid high vs) (le : low ≤ mid) : Strung low high vs := by
  cases h with
  | nil => exact .nil
  | cons first upto others => exact .cons (first.low_mono le) upto others

theorem Strung.high_mono (h : Strung low mid vs) (le : mid ≤ high) : Strung low high vs := by
  induction vs generalizing low with
  | nil => exact .nil
  | cons v rest ih =>
    obtain _ | ⟨first, upto, others⟩ := h
    exact .cons first (Nat.le_trans upto le) (ih others)

theorem Lies.high_mono (h : Lies low mid v) (le : mid ≤ high) : Lies low high v := by
  obtain ⟨low_le, lt_mid, parts⟩ := h
  exact ⟨low_le, Nat.lt_of_lt_of_le lt_mid le, parts.high_mono le⟩

theorem Strung.lies_of_mem (h : Strung low high vs) (mem : v ∈ vs) : Lies low high v := by
  induction vs generalizing low with
  | nil => contradiction
  | cons first rest ih =>
    obtain _ | ⟨here, upto, others⟩ := h
    rcases List.mem_cons.mp mem with rfl | later
    · exact here.high_mono upto
    · have := here.bounds
      exact (ih others later).low_mono (by omega)

theorem parts_of_get? {key : Bytes} (h : v.get? key = some w) : w ∈ v.parts := by
  cases v with
  | object p members =>
    obtain ⟨m, found, rfl⟩ := Option.map_eq_some_iff.mp h
    exact List.mem_map_of_mem (List.mem_of_find?_eq_some found)
  | word | number | string | array => simp [get?] at h

theorem Lies.get? (h : Lies low high v) {key : Bytes} (found : v.get? key = some w) :
    Lies (v.start + 1) high w := by
  obtain ⟨-, -, parts⟩ := h
  exact parts.lies_of_mem (parts_of_get? found)

theorem Lies.elements (h : Lies low high v) : Strung low high v.elements := by
  have inside : Strung low high v.parts := by
    obtain ⟨low_le, -, parts⟩ := h
    exact parts.low_mono (by omega)
  cases v with
  | array | object => exact inside
  | word | number | string => exact .cons h (Nat.le_refl _) .nil

/-! ## Reading takes text -/

theorem length_skipBlank_le (s : Bytes) : (skipBlank s).length ≤ s.length :=
  (List.dropWhile_suffix _).length_le

theorem length_afterString? {s rest : Bytes} (h : afterString? s = some rest) :
    rest.length < s.length := by
  fun_induction afterString? s <;> simp_all <;> omega

theorem length_afterDigits? {s rest : Bytes} (h : afterDigits? s = some rest) :
    rest.length < s.length := by
  unfold afterDigits? at h
  split_ifs at h with digit
  obtain rfl := Option.some.inj h
  cases s with
  | nil => simp at digit
  | cons c s =>
    have : AvroIdl.isDigit c = true := by simpa using digit
    rw [List.dropWhile_cons_of_pos this]
    exact Nat.lt_succ_of_le (List.dropWhile_suffix _).length_le

theorem length_afterNumber? {s rest : Bytes} (h : afterNumber? s = some rest) :
    rest.length < s.length := by
  have length_tail_le (t : Bytes) : t.tail.length ≤ t.length := by simp
  simp only [afterNumber?, Option.bind_eq_bind] at h
  generalize power : (fun t : Bytes => if t.head? = some 0x65 || t.head? = some 0x45 then _
    else _) = after at h
  have exponent {t : Bytes} (h : after t = some rest) : rest.length ≤ t.length := by
    rw [← power] at h
    have := length_tail_le t
    have := length_tail_le t.tail
    dsimp only at h
    split_ifs at h
    · have := length_afterDigits? h
      omega
    · have := length_afterDigits? h
      omega
    · exact Nat.le_of_eq (congrArg List.length (Option.some.inj h).symm)
  have fraction {t : Bytes} (h : (if t.head? = some 0x2e then (afterDigits? t.tail).bind after
      else (some t).bind after) = some rest) : rest.length ≤ t.length := by
    split_ifs at h
    · obtain ⟨r, digits, h⟩ := Option.bind_eq_some_iff.mp h
      have := length_afterDigits? digits
      have := length_tail_le t
      have := exponent h
      omega
    · exact exponent h
  have unsigned : (if s.head? = some 0x2d then s.tail else s).length ≤ s.length := by
    split_ifs <;> simp
  refine Nat.lt_of_lt_of_le ?_ unsigned
  generalize (if s.head? = some 0x2d then s.tail else s) = s at h
  split_ifs at h with zero
  · refine Nat.lt_of_le_of_lt (fraction h) ?_
    cases s with
    | nil => contradiction
    | cons => simp
  · obtain ⟨r, whole, h⟩ := Option.bind_eq_some_iff.mp h
    exact Nat.lt_of_le_of_lt (fraction h) (length_afterDigits? whole)

theorem length_drop_word {s w : Bytes} (h : words.find? (fun w => w.isPrefixOf s) = some w) :
    (s.drop w.length).length < s.length := by
  have size : 0 < w.length :=
    (by decide : ∀ w ∈ words, 0 < w.length) w (List.mem_of_find?_eq_some h)
  have whole : w <+: s := List.isPrefixOf_iff_prefix.mp
    (List.find?_some (p := fun w : Bytes => w.isPrefixOf s) h)
  have := whole.length_le
  rw [List.length_drop]
  omega

/-! ## Where values are read -/

/-- Values that are read from a text up to `rest`, both the end of one of `total` bytes. -/
def Between (total : Nat) (s rest : Bytes) (vs : List Json) : Prop :=
  rest.length < s.length ∧ Strung (total - s.length) (total - rest.length) vs

section Read

variable {total : Nat} {c : UInt8} {s t rest : Bytes}

/-- A value lies between its first byte and the text after it. -/
theorem lies_of_parts (size : s.length ≤ total) (taken : rest.length < s.length)
    (start : v.start = total - s.length)
    (parts : Strung (total - s.length + 1) (total - rest.length) v.parts) :
    rest.length < s.length ∧ Lies (total - s.length) (total - rest.length) v :=
  ⟨taken, Nat.le_of_eq start.symm, by omega, by rwa [start]⟩

/-- What is read after the first byte of a value lies behind it. -/
theorem Between.parts (h : Between total (skipBlank s) rest vs) (size : (c :: s).length ≤ total) :
    rest.length < (c :: s).length ∧
      Strung (total - (c :: s).length + 1) (total - rest.length) vs := by
  have blank := length_skipBlank_le s
  rw [List.length_cons] at size ⊢
  exact ⟨Nat.lt_succ_of_lt (Nat.lt_of_lt_of_le h.1 blank), h.2.low_mono (by omega)⟩

/-- Values are read one after the other. -/
theorem Between.cons {mid : Bytes} (size : s.length ≤ total) (taken : t.length < s.length)
    (first : Lies (total - s.length) (total - t.length) v) (le : mid.length ≤ t.length)
    (others : Between total mid rest vs) : Between total s rest (v :: vs) := by
  refine ⟨?_, .cons first ?_ (others.2.low_mono ?_)⟩
  · have := others.1
    omega
  · have := others.1
    omega
  · omega

theorem Between.single (taken : t.length < s.length)
    (first : Lies (total - s.length) (total - t.length) v) (le : rest.length ≤ t.length) :
    Between total s rest [v] :=
  ⟨Nat.lt_of_le_of_lt le taken, .cons first (by omega) .nil⟩

/-- Each value lies where it was read, and so do the members and elements in it. -/
theorem between_of_read (total depth : Nat) :
    (∀ s v rest, s.length ≤ total → value? total depth s = some (v, rest) →
      rest.length < s.length ∧ Lies (total - s.length) (total - rest.length) v) ∧
    (∀ s members rest, s.length ≤ total → members? total depth s = some (members, rest) →
      Between total s rest (members.map (·.2))) ∧
    ∀ s items rest, s.length ≤ total → items? total depth s = some (items, rest) →
      Between total s rest items := by
  induction depth with
  | zero => simp [value?, members?, items?]
  | succ depth ih =>
    obtain ⟨value, members, items⟩ := ih
    refine ⟨fun s v rest size h => ?_, fun s ms rest size h => ?_, fun s is rest size h => ?_⟩
    · cases s with
      | nil => simp [value?] at h
      | cons c s =>
        have blank := length_skipBlank_le s
        have fits : (skipBlank s).length ≤ total := by rw [List.length_cons] at size; omega
        have closed : (skipBlank s).tail.length < (c :: s).length := by
          rw [List.length_tail, List.length_cons]
          omega
        dsimp only [value?, List.head?_cons, Option.bind_eq_bind, Option.bind_some, List.tail_cons] at h
        split at h
        · split at h
          · obtain ⟨rfl, rfl⟩ := Prod.mk.inj (Option.some.inj h)
            exact lies_of_parts size closed rfl .nil
          · obtain ⟨⟨ms, rest⟩, read, h⟩ := Option.bind_eq_some_iff.mp h
            obtain ⟨rfl, rfl⟩ := Prod.mk.inj (Option.some.inj h)
            obtain ⟨taken, parts⟩ := (members _ _ _ fits read).parts size
            exact lies_of_parts size taken rfl parts
        split at h
        · split at h
          · obtain ⟨rfl, rfl⟩ := Prod.mk.inj (Option.some.inj h)
            exact lies_of_parts size closed rfl .nil
          · obtain ⟨⟨is, rest⟩, read, h⟩ := Option.bind_eq_some_iff.mp h
            obtain ⟨rfl, rfl⟩ := Prod.mk.inj (Option.some.inj h)
            obtain ⟨taken, parts⟩ := (items _ _ _ fits read).parts size
            exact lies_of_parts size taken rfl parts
        split at h
        · obtain ⟨rest, read, h⟩ := Option.bind_eq_some_iff.mp h
          obtain ⟨rfl, rfl⟩ := Prod.mk.inj (Option.some.inj h)
          exact lies_of_parts size (Nat.lt_succ_of_lt (length_afterString? read)) rfl .nil
        split at h
        · obtain ⟨rest, read, h⟩ := Option.bind_eq_some_iff.mp h
          obtain ⟨rfl, rfl⟩ := Prod.mk.inj (Option.some.inj h)
          exact lies_of_parts size (length_afterNumber? read) rfl .nil
        · obtain ⟨w, found, h⟩ := Option.bind_eq_some_iff.mp h
          obtain ⟨rfl, rfl⟩ := Prod.mk.inj (Option.some.inj h)
          exact lies_of_parts size (length_drop_word found) rfl .nil
    · dsimp only [members?, Option.bind_eq_bind] at h
      split at h
      · contradiction
      obtain ⟨afterKey, key, h⟩ := Option.bind_eq_some_iff.mp h
      split at h
      · contradiction
      obtain ⟨⟨v, after⟩, read, h⟩ := Option.bind_eq_some_iff.mp h
      have shorter : (skipBlank (skipBlank afterKey).tail).length < s.length := by
        have := length_afterString? key
        have := length_skipBlank_le afterKey
        have := length_skipBlank_le (skipBlank afterKey).tail
        simp only [List.length_tail] at *
        omega
      obtain ⟨taken, first⟩ := value _ _ _ (by omega) read
      have first : Lies (total - s.length) (total - after.length) v := first.low_mono (by omega)
      have blank := length_skipBlank_le after
      dsimp only at h
      split at h
      · obtain ⟨rfl, rfl⟩ := Prod.mk.inj (Option.some.inj h)
        exact .single (by omega) first (by rw [List.length_tail]; omega)
      split at h
      · obtain ⟨⟨more, rest⟩, read, h⟩ := Option.bind_eq_some_iff.mp h
        obtain ⟨rfl, rfl⟩ := Prod.mk.inj (Option.some.inj h)
        have blank' := length_skipBlank_le (skipBlank after).tail
        rw [List.length_tail] at blank'
        exact .cons size (by omega) first (by omega) (members _ _ _ (by omega) read)
      · contradiction
    · dsimp only [items?, Option.bind_eq_bind] at h
      obtain ⟨⟨v, after⟩, read, h⟩ := Option.bind_eq_some_iff.mp h
      obtain ⟨taken, first⟩ := value _ _ _ size read
      have blank := length_skipBlank_le after
      dsimp only at h
      split at h
      · obtain ⟨rfl, rfl⟩ := Prod.mk.inj (Option.some.inj h)
        exact .single taken first (by rw [List.length_tail]; omega)
      split at h
      · obtain ⟨⟨more, rest⟩, read, h⟩ := Option.bind_eq_some_iff.mp h
        obtain ⟨rfl, rfl⟩ := Prod.mk.inj (Option.some.inj h)
        have blank' := length_skipBlank_le (skipBlank after).tail
        rw [List.length_tail] at blank'
        exact .cons size taken first (by omega) (items _ _ _ (by omega) read)
      · contradiction

/-- The value that a text holds lies in it. -/
theorem lies_read? {text : Bytes} (h : read? text = some v) : Lies 0 text.length v := by
  dsimp only [read?, Option.bind_eq_bind] at h
  obtain ⟨⟨w, rest⟩, read, h⟩ := Option.bind_eq_some_iff.mp h
  have size := length_skipBlank_le text
  obtain ⟨taken, lies⟩ := (between_of_read text.length _).1 _ _ _ size read
  dsimp only at h
  split at h
  · obtain rfl := Option.some.inj h
    obtain ⟨low_le, -, parts⟩ := lies
    -- The whole text is given to the value. It still starts where it did, and has the same parts.
    have start : (w.withPiece (pieceOf text.length (skipBlank text) [])).start =
        text.length - (skipBlank text).length := by cases w <;> rfl
    have same : (w.withPiece (pieceOf text.length (skipBlank text) [])).parts = w.parts := by
      cases w <;> rfl
    refine ⟨Nat.zero_le _, by omega, ?_⟩
    rw [start, same]
    exact (parts.low_mono (by omega)).high_mono (by omega)
  · contradiction

end Read

end Json

end AvroIdl
