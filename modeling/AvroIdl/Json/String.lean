import AvroIdl.Text.Rune

/-!
# JSON strings

String literals are decoded leniently: what cannot be decoded ends the string. A surrogate without
a partner is the replacement character.
-/

namespace AvroIdl

namespace JsonString

/-- The character that a letter after a backslash stands for. -/
def escape? (c : UInt8) : Option UInt8 :=
  match Char.ofUInt8 c with
  | '"' => some 0x22
  | '\\' => some 0x5c
  | '/' => some 0x2f
  | 'b' => some 0x08
  | 'f' => some 0x0c
  | 'n' => some 0x0a
  | 'r' => some 0x0d
  | 't' => some 0x09
  | _ => none

/-- The code that four hexadecimal digits spell, zero if they are not all digits. -/
def code (a b c d : UInt8) : Nat :=
  match hexValue? a, hexValue? b, hexValue? c, hexValue? d with
  | some a, some b, some c, some d => ((a * 16 + b) * 16 + c) * 16 + d
  | _, _, _, _ => 0

/-- The replacement character. -/
def replacement : Nat := 0xfffd

/-- Whether a code is half of a pair. -/
def isSurrogate (code : Nat) : Bool := 0xd800 ≤ code && code < 0xe000

/-- The character that two codes stand for together. -/
def pair (high low : Nat) : Nat :=
  if high < 0xdc00 && 0xdc00 ≤ low && low < 0xe000 then
    0x10000 + (high - 0xd800) * 1024 + (low - 0xdc00)
  else replacement

/-- The text for half of a pair whose other half is missing. -/
def alone (held : Option Nat) : Bytes := if held.isSome then Rune.encode replacement else []

/-- The text that escaped text stands for, as far as it can be decoded, where `held` is half of a
pair that has been read just before. -/
def unescapeAfter (held : Option Nat) : Bytes → Bytes
  | [] => alone held
  | c :: rest =>
    if c < 0x20 then alone held
    else if c ≠ 0x5c then alone held ++ c :: unescapeAfter none rest
    else match rest with
      | [] => alone held
      | e :: rest =>
        if let some b := escape? e then alone held ++ b :: unescapeAfter none rest
        else if e ≠ 0x75 then alone held
        else match rest with
          | a :: b :: c :: d :: rest =>
            let next := code a b c d
            match held with
            | some first => Rune.encode (pair first next) ++ unescapeAfter none rest
            | none =>
              if isSurrogate next then unescapeAfter (some next) rest
              else Rune.encode next ++ unescapeAfter none rest
          | _ => alone held

/-- The text that escaped text stands for, as far as it can be decoded. -/
def unescape (s : Bytes) : Bytes := unescapeAfter none s

/-- What stands before the closing quote. A quote after a backslash does not close. -/
def body (escaped : Bool) : Bytes → Bytes
  | [] => []
  | c :: rest =>
    if escaped then c :: body false rest
    else if c = 0x22 then []
    else c :: body (c = 0x5c) rest

/-- The text of a string from its body. -/
def ofBody (s : Bytes) : Bytes := if s.contains 0x5c then unescape s else s

/-- The text of a string literal. What follows the closing quote does not matter, and the quote may
be missing. -/
def decode? (literal : Bytes) : Option Bytes :=
  match literal.dropWhile (· ≤ 0x20) with
  | [] => none
  | c :: rest => if c = 0x22 then some (ofBody (body false rest)) else none

end JsonString

end AvroIdl
