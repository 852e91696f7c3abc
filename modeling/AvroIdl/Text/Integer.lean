import AvroIdl.Text.Bytes

/-!
# Integers in text
-/

namespace AvroIdl

namespace Bytes

/-- The number that decimal digits spell, of which there is at least one. -/
def digits? (s : Bytes) : Option Nat :=
  if s.isEmpty || !s.all isDigit then none
  else some (s.foldl (fun n d => n * 10 + (d.toNat - 0x30)) 0)

/-- A number after an optional sign. -/
def signed? (number? : Bytes → Option Nat) (s : Bytes) : Option Int :=
  match s with
  | [] => none
  | c :: rest =>
    if c = 0x2d then (number? rest).map fun n => -(n : Int)
    else if c = 0x2b then (number? rest).map fun n => (n : Int)
    else (number? s).map fun n => (n : Int)

/-- The integer that decimal digits spell after an optional sign. -/
def integer? (s : Bytes) : Option Int := signed? digits? s

/-- The value of a digit or of a letter as a digit. -/
def digitValue? (c : UInt8) : Option Nat :=
  if isDigit c then some (c.toNat - 0x30)
  else if isLetter c then some ((c ||| 0x20).toNat - 0x57)
  else none

/-- The base of a literal and the digits after the sign of the base: `0b`, `0o` or `0x`, or only
`0` for base eight. -/
def splitBase (s : Bytes) : Nat × Bytes :=
  match s with
  | [] => (10, [])
  | z :: rest =>
    if z ≠ 0x30 then (10, s)
    else match rest with
      | b :: d :: more =>
        let mark := b ||| 0x20
        if mark = ofChar 'b' then (2, d :: more)
        else if mark = ofChar 'o' then (8, d :: more)
        else if mark = ofChar 'x' then (16, d :: more)
        else (8, rest)
      | _ => (8, rest)

/-- Whether each underscore stands between two digits. -/
def separated (digitBefore : Bool) : Bytes → Bool
  | [] => digitBefore
  | c :: rest => if c = 0x5f then digitBefore && separated false rest else separated true rest

/-- Appends a digit to a number. -/
def appendDigit? (base n : Nat) (c : UInt8) : Option Nat := do
  let d ← digitValue? c
  if d < base then some (n * base + d) else none

/-- The number that a literal spells: digits with underscores between them, after the sign of the
base. -/
def literal? (s : Bytes) : Option Nat :=
  let (base, digits) := splitBase s
  if s.isEmpty || !separated (base ≠ 10) digits then none
  else (digits.filter (· ≠ 0x5f)).foldlM (appendDigit? base) 0

end Bytes

/-- Whether an integer fits into a signed word of `bits` bits. -/
def fitsSigned (bits : Nat) (n : Int) : Bool :=
  let half := Int.ofNat (Nat.pow 2 (bits - 1))
  n < half && -half ≤ n

/-- Whether an integer fits into an unsigned word of `bits` bits. -/
def fitsUnsigned (bits : Nat) (n : Int) : Bool := 0 ≤ n && n < Int.ofNat (Nat.pow 2 bits)

end AvroIdl
