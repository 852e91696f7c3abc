import AvroIdl.Proofs.Token.Renaming
import AvroIdl.Proofs.Token.Restart

/-!
# Whole characters

A text is cut at a good place if the cut stands behind whole characters, `Bytes.Whole`. The part
before such a cut reads as it does in the text, character by character, whatever bytes follow:
`Rune.read_take` for one character and `Bytes.runes_take` for the characters from one to the next.
-/

namespace AvroIdl

namespace Rune

variable {lead b : UInt8} {rest : Bytes}

/-- A stray byte takes nothing with it. -/
theorem read_stray {extra : Nat} (h : read lead rest = (.stray b, extra)) : b = lead ∧ extra = 0 := by
  revert h
  fun_cases read lead rest <;> simp +contextual [eq_comm]

/-- No byte of a character after its first is an ASCII character. -/
theorem le_of_mem_take (mem : b ∈ rest.take (read lead rest).2) : 0x80 ≤ b := by
  revert mem
  fun_cases read lead rest <;>
    simp_all [secondOfThree, secondOfFour, continues] <;> grind

/-- A character reads the same where the text is cut somewhere behind it. -/
theorem read_take {n : Nat} (behind : (read lead rest).2 ≤ n) :
    read lead (rest.take n) = read lead rest := by
  cases whole : read lead rest with
  | mk rune extra =>
    rw [whole] at behind
    have fits : extra ≤ rest.length := by
      have := Scan.rune_le lead rest
      rwa [whole] at this
    cases rune with
    | scalar code =>
      have size : (rest.take extra).length = extra := by rw [List.length_take, Nat.min_eq_left fits]
      have cut : rest.take n = rest.take extra ++ (rest.drop extra).take (n - extra) := by
        rw [← List.take_add, Nat.add_sub_cancel' behind]
      have here : read lead (rest.take extra ++ rest.drop extra) =
          (.scalar code, (rest.take extra).length) := by
        rw [List.take_append_drop, size, whole]
      rw [cut, Scan.Rune.read_front here, size]
    | stray byte =>
      obtain ⟨rfl, rfl⟩ := read_stray whole
      -- A character that could be read off the part could be read off the text.
      cases part : read byte (rest.take n) with
      | mk rune extra =>
        cases rune with
        | stray other =>
          obtain ⟨rfl, rfl⟩ := read_stray part
          rfl
        | scalar code =>
          have fits : extra ≤ (rest.take n).length := by
            have := Scan.rune_le byte (rest.take n)
            rwa [part] at this
          have size : ((rest.take n).take extra).length = extra := by
            rw [List.length_take, Nat.min_eq_left fits]
          have here : read byte ((rest.take n).take extra ++ (rest.take n).drop extra) =
              (.scalar code, ((rest.take n).take extra).length) := by
            rw [List.take_append_drop, size, part]
          have there : read byte ((rest.take n).take extra ++ ((rest.take n).drop extra ++ rest.drop n)) =
              (.scalar code, ((rest.take n).take extra).length) := Scan.Rune.read_front here
          rw [← List.append_assoc, List.take_append_drop, List.take_append_drop, whole] at there
          simp at there

end Rune

namespace Bytes

theorem runesFrom_eq (skip : Nat) (s : Bytes) : runesFrom skip s = runes (s.drop skip) := by
  induction skip generalizing s with
  | zero => rfl
  | succ k ih =>
    cases s with
    | nil => rfl
    | cons b rest => exact ih rest

theorem runes_cons (c : UInt8) (rest : Bytes) :
    runes (c :: rest) = (Rune.read c rest).1 :: runes (rest.drop (Rune.read c rest).2) := by
  rw [← runesFrom_eq]
  rfl

/-- Every character has a byte. -/
theorem length_runesFrom_le (skip : Nat) (s : Bytes) : (runesFrom skip s).length ≤ s.length := by
  fun_induction runesFrom skip s with
  | case1 => exact Nat.le_refl _
  | case2 b rest k ih => exact Nat.le_succ_of_le ih
  | case3 b rest ih => exact Nat.succ_le_succ ih

/-- So many bytes at the start of a text are whole characters. -/
inductive Whole : Bytes → Nat → Prop
  | none (s : Bytes) : Whole s 0
  | next {c : UInt8} {rest : Bytes} {n : Nat} (more : Whole (rest.drop (Rune.read c rest).2) n) :
    Whole (c :: rest) (1 + (Rune.read c rest).2 + n)

theorem Whole.le_length {s : Bytes} {n : Nat} (h : s.Whole n) : n ≤ s.length := by
  induction h with
  | none => exact Nat.zero_le _
  | @next c rest n _ ih =>
    have := Scan.rune_le c rest
    rw [List.length_drop] at ih
    rw [List.length_cons]
    omega

/-- The part of a text before a cut, divided behind its first character. -/
theorem take_next (c : UInt8) (rest : Bytes) (n : Nat) :
    (c :: rest).take (1 + (Rune.read c rest).2 + n) =
      c :: (rest.take (Rune.read c rest).2 ++ (rest.drop (Rune.read c rest).2).take n) := by
  rw [Nat.add_assoc, Nat.add_comm 1, List.take_succ_cons, List.take_add]

/-- A text that is cut behind its first character has that character and those of what is left. -/
theorem runes_take (c : UInt8) (rest : Bytes) (n : Nat) :
    runes ((c :: rest).take (1 + (Rune.read c rest).2 + n)) =
      (Rune.read c rest).1 :: runes ((rest.drop (Rune.read c rest).2).take n) := by
  rw [Nat.add_assoc, Nat.add_comm 1, List.take_succ_cons, runes_cons,
    Rune.read_take (Nat.le_add_right _ n), List.drop_take, Nat.add_sub_cancel_left]

end Bytes

end AvroIdl
