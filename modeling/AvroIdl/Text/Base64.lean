import AvroIdl.Text.Bytes

/-!
# Base64

Four characters stand for three bytes. Equals signs fill up the last four characters. Line ends are
not read.
-/

namespace AvroIdl.Base64

def padding : UInt8 := Bytes.ofChar '='

/-- The six bits that a character stands for. -/
def sixBits? (c : UInt8) : Option Nat :=
  if 0x41 ≤ c && c ≤ 0x5a then some (c.toNat - 0x41)
  else if 0x61 ≤ c && c ≤ 0x7a then some (c.toNat - 0x61 + 26)
  else if isDigit c then some (c.toNat - 0x30 + 52)
  else if c = Bytes.ofChar '+' then some 62
  else if c = Bytes.ofChar '/' then some 63
  else none

/-- The bytes that characters without line ends stand for. -/
def decodeFours? : Bytes → Option Bytes
  | [] => some []
  | a :: b :: c :: d :: rest => do
    let ab := (← sixBits? a) * 64 + (← sixBits? b)
    let first := (ab / 16).toUInt8
    if d = padding && rest.isEmpty then
      if c = padding then some [first]
      else
        let abc := ab * 64 + (← sixBits? c)
        some [first, (abc / 4).toUInt8]
    else
      let abcd := (ab * 64 + (← sixBits? c)) * 64 + (← sixBits? d)
      some (first :: (abcd / 256).toUInt8 :: abcd.toUInt8 :: (← decodeFours? rest))
  | _ => none

/-- The bytes that a text stands for. -/
def decode? (s : Bytes) : Option Bytes := decodeFours? (s.filter fun c => c ≠ 0x0a && c ≠ 0x0d)

end AvroIdl.Base64
