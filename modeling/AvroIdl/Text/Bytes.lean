/-!
# Byte strings

All text is a list of bytes, which need not be valid UTF-8, and every offset is a byte offset.
-/

namespace AvroIdl

/-- Text as it is stored. -/
abbrev Bytes := List UInt8

namespace Bytes

/-- The UTF-8 bytes of a string. -/
def ofString (s : String) : Bytes := s.toUTF8.data.toList

instance : Coe String Bytes := ⟨ofString⟩

/-- The decimal digits of a number. -/
def ofNat (n : Nat) : Bytes := ofString n.repr

/-- The decimal digits of a number, after a minus sign if it is negative. -/
def ofInt : Int → Bytes
  | .ofNat n => ofNat n
  | .negSucc n => ofString "-" ++ ofNat (n + 1)

/-- The parts one after the other. -/
def join (parts : List Bytes) : Bytes := parts.flatten

/-- The parts one after the other, with `sep` between any two. -/
def joinWith (sep : Bytes) (parts : List Bytes) : Bytes := (parts.intersperse sep).flatten

/-- The bytes from offset `start` up to offset `stop`. -/
def slice (s : Bytes) (start stop : Nat) : Bytes := (s.take stop).drop start

/-- The offset of the first place where `part` occurs. -/
def indexOf? (part : Bytes) : Bytes → Option Nat
  | [] => if part.isEmpty then some 0 else none
  | s@(_ :: rest) => if part.isPrefixOf s then some 0 else (indexOf? part rest).map (· + 1)

/-- The offset of the last occurrence of a byte. -/
def lastIndexOf? (b : UInt8) (s : Bytes) : Option Nat :=
  (s.reverse.idxOf? b).map fun i => s.length - 1 - i

/-- The byte of an ASCII character. -/
def ofChar (c : Char) : UInt8 := c.toNat.toUInt8

/-- The parts between the occurrences of a byte: one more part than occurrences. -/
def splitOn (b : UInt8) (s : Bytes) : List Bytes :=
  s.foldr (fun c parts =>
    if c = b then [] :: parts
    else match parts with
      | [] => [[c]]
      | p :: ps => (c :: p) :: ps) [[]]

/-- Whether `a` comes before `b` when bytes are compared from the left. -/
def before (a b : Bytes) : Bool := decide (a < b)

/-- The text as characters, when it is valid UTF-8. -/
def toString? (s : Bytes) : Option String := String.fromUTF8? ⟨s.toArray⟩

/-- The truth value that a text spells. -/
def bool? (s : Bytes) : Option Bool :=
  let isOneOf (words : List String) : Bool := (words.map ofString).contains s
  if isOneOf ["1", "t", "T", "TRUE", "true", "True"] then some true
  else if isOneOf ["0", "f", "F", "FALSE", "false", "False"] then some false
  else none

/-- The name with a number in a list of names. A number without a name is shown with its type. -/
def nameOfNumber (type : Bytes) (names : List Bytes) (n : Nat) : Bytes :=
  names.getD n (join [type, "(", ofNat n, ")"])

/-- The name with a number in a list of names that are numbered from one on. -/
def nameOfKind (type : Bytes) (names : List Bytes) (n : Nat) : Bytes :=
  nameOfNumber type (join [type, "(0)"] :: names) n

end Bytes

/-- Whether a byte is a decimal digit. -/
def isDigit (c : UInt8) : Bool := 0x30 ≤ c && c ≤ 0x39

/-- Whether a byte is a hexadecimal digit. -/
def isHexDigit (c : UInt8) : Bool :=
  isDigit c || (0x61 ≤ c && c ≤ 0x66) || (0x41 ≤ c && c ≤ 0x46)

/-- Whether a byte is an ASCII letter. -/
def isLetter (c : UInt8) : Bool := (0x41 ≤ c && c ≤ 0x5a) || (0x61 ≤ c && c ≤ 0x7a)

/-- The value of a hexadecimal digit. -/
def hexValue? (c : UInt8) : Option Nat :=
  if isDigit c then some (c.toNat - 0x30)
  else if 0x61 ≤ c && c ≤ 0x66 then some (c.toNat - 0x57)
  else if 0x41 ≤ c && c ≤ 0x46 then some (c.toNat - 0x37)
  else none

end AvroIdl
