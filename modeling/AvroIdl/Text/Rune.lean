import AvroIdl.Text.Bytes

/-!
# Characters in bytes

`Bytes.runes` reads a text as UTF-8. A byte that begins no well-formed character stands alone, so
every text has exactly one reading.
-/

namespace AvroIdl

/-- A character of a text, or a byte that belongs to none. -/
inductive Rune where
  | scalar (code : Nat)
  | stray (byte : UInt8)
  deriving DecidableEq, Repr

namespace Rune

/-- Whether a byte continues a character. -/
def continues (b : UInt8) : Bool := 0x80 ≤ b && b ≤ 0xbf

/-- Whether `b` may follow `lead` at the start of a character of three bytes. The bounds shut out
overlong forms and surrogates. -/
def secondOfThree (lead b : UInt8) : Bool :=
  (if lead = 0xe0 then 0xa0 else 0x80) ≤ b && b ≤ (if lead = 0xed then 0x9f else 0xbf)

/-- Whether `b` may follow `lead` at the start of a character of four bytes. The bounds shut out
overlong forms and codes above U+10FFFF. -/
def secondOfFour (lead b : UInt8) : Bool :=
  (if lead = 0xf0 then 0x90 else 0x80) ≤ b && b ≤ (if lead = 0xf4 then 0x8f else 0xbf)

/-- The lowest six bits of a byte. -/
def payload (b : UInt8) : Nat := b.toNat % 64

/-- The character that begins with `lead`, and how many bytes of `rest` it takes. -/
def read (lead : UInt8) (rest : Bytes) : Rune × Nat :=
  if lead < 0x80 then (.scalar lead.toNat, 0)
  else match rest with
    | b :: rest =>
      if 0xc2 ≤ lead && lead ≤ 0xdf && continues b then
        (.scalar (lead.toNat % 32 * 64 + payload b), 1)
      else match rest with
        | c :: rest =>
          if 0xe0 ≤ lead && lead ≤ 0xef && secondOfThree lead b && continues c then
            (.scalar ((lead.toNat % 16 * 64 + payload b) * 64 + payload c), 2)
          else match rest with
            | d :: _ =>
              if 0xf0 ≤ lead && lead ≤ 0xf4 && secondOfFour lead b && continues c && continues d then
                (.scalar (((lead.toNat % 8 * 64 + payload b) * 64 + payload c) * 64 + payload d), 3)
              else (.stray lead, 0)
            | [] => (.stray lead, 0)
        | [] => (.stray lead, 0)
    | [] => (.stray lead, 0)

/-- The UTF-8 bytes of a character code. -/
def encode (code : Nat) : Bytes :=
  if code < 0x80 then [code.toUInt8]
  else if code < 0x800 then [(0xc0 + code / 64).toUInt8, (0x80 + code % 64).toUInt8]
  else if code < 0x10000 then
    [(0xe0 + code / 4096).toUInt8, (0x80 + code / 64 % 64).toUInt8, (0x80 + code % 64).toUInt8]
  else
    [(0xf0 + code / 262144).toUInt8, (0x80 + code / 4096 % 64).toUInt8,
      (0x80 + code / 64 % 64).toUInt8, (0x80 + code % 64).toUInt8]

end Rune

namespace Bytes

/-- The characters of a text after the first `skip` bytes, which belong to a character that has
been read already. -/
def runesFrom (skip : Nat) : Bytes → List Rune
  | [] => []
  | b :: rest =>
    match skip with
    | k + 1 => runesFrom k rest
    | 0 => (Rune.read b rest).1 :: runesFrom (Rune.read b rest).2 rest

/-- The characters of a text, from left to right. -/
def runes (s : Bytes) : List Rune := runesFrom 0 s

end Bytes

end AvroIdl
