import AvroIdl.Text.Rune
import AvroIdl.Text.Printable

/-!
# Quoted text

Messages show a text between double quotes on one line. Printable characters stand as they are;
the quote, the backslash, stray bytes and all other characters are escaped.
-/

namespace AvroIdl

/-- The lower case hexadecimal digits of a number, at least `width` of them. -/
def hexDigits (width n : Nat) : Bytes :=
  let digits := (Nat.toDigits 16 n).map Bytes.ofChar
  List.replicate (width - digits.length) 0x30 ++ digits

namespace Quoted

/-- The letter after the backslash for the characters that have one. -/
def escapeLetter? : Nat → Option Char
  | 0x07 => some 'a'
  | 0x08 => some 'b'
  | 0x0c => some 'f'
  | 0x0a => some 'n'
  | 0x0d => some 'r'
  | 0x09 => some 't'
  | 0x0b => some 'v'
  | 0x22 => some '"'
  | 0x5c => some '\\'
  | _ => none

/-- How one character is shown between the quotes. -/
def encodeRune : Rune → Bytes
  | .stray b => Bytes.join ["\\x", hexDigits 2 b.toNat]
  | .scalar code =>
    match escapeLetter? code with
    | some c => [0x5c, Bytes.ofChar c]
    | none =>
      if isPrintable code then Rune.encode code
      else if code < 0x80 then Bytes.join ["\\x", hexDigits 2 code]
      else if code < 0x10000 then Bytes.join ["\\u", hexDigits 4 code]
      else Bytes.join ["\\U", hexDigits 8 code]

end Quoted

/-- A text between double quotes, with everything escaped that does not print. -/
def Bytes.quoted (s : Bytes) : Bytes :=
  0x22 :: (s.runes.flatMap Quoted.encodeRune ++ [0x22])

/-- A character between single quotes, with everything escaped that does not print. -/
def quotedChar (code : Nat) : Bytes :=
  let shown :=
    if code = 0x27 then [0x5c, 0x27]
    else if code = 0x22 then [0x22]
    else Quoted.encodeRune (.scalar code)
  0x27 :: (shown ++ [0x27])

end AvroIdl
