import AvroIdl.Yaml.Character

/-!
# Encodings of YAML

A text is in UTF-8 unless it begins with the byte order mark of UTF-16. Most control characters may
not stand in it.
-/

namespace AvroIdl.Yaml

inductive Encoding where
  | utf8
  | utf16LittleEndian
  | utf16BigEndian
  deriving DecidableEq, Repr

/-- Whether the character with a code may stand in a text. -/
def isAllowed (code : Nat) : Bool :=
  code = 0x09 || code = 0x0a || code = 0x0d || (0x20 ≤ code && code ≤ 0x7e) || code = 0x85 ||
    (0xa0 ≤ code && code ≤ 0xd7ff) || (0xe000 ≤ code && code ≤ 0xfffd) ||
    (0x10000 ≤ code && code ≤ 0x10ffff)

/-- What stands first in a text. -/
inductive Reading where
  /-- The code of a character and what follows it. -/
  | character (code : Nat) (rest : Bytes)
  /-- Less than a character. -/
  | incomplete
  /-- The start of no character. -/
  | malformed
  deriving DecidableEq, Repr

namespace Encoding

/-- The encoding of a text, and the length of the byte order mark that says so. -/
def ofMark (s : Bytes) : Encoding × Nat :=
  if ([0xff, 0xfe] : Bytes).isPrefixOf s then (utf16LittleEndian, 2)
  else if ([0xfe, 0xff] : Bytes).isPrefixOf s then (utf16BigEndian, 2)
  else if ([0xef, 0xbb, 0xbf] : Bytes).isPrefixOf s then (utf8, 3)
  else (utf8, 0)

/-- The number of bytes after the first one of a character in UTF-8. -/
def followers? (lead : UInt8) : Option Nat :=
  if lead < 0x80 then some 0
  else if 0xc0 ≤ lead && lead < 0xe0 then some 1
  else if 0xe0 ≤ lead && lead < 0xf0 then some 2
  else if 0xf0 ≤ lead && lead < 0xf8 then some 3
  else none

/-- What stands first in a text in UTF-8. -/
def readUtf8 : Bytes → Reading
  | [] => .incomplete
  | lead :: rest =>
    match followers? lead with
    | none => .malformed
    | some n =>
      if (rest.take n).length < n then .incomplete
      else match Rune.read lead rest with
        | (.scalar code, n) => .character code (rest.drop n)
        | (.stray _, _) => .malformed

def isHighSurrogate (unit : Nat) : Bool := 0xd800 ≤ unit && unit < 0xdc00

def isLowSurrogate (unit : Nat) : Bool := 0xdc00 ≤ unit && unit < 0xe000

/-- What stands first in a text in UTF-16, given how two bytes make a unit. -/
def readUtf16 (unit : UInt8 → UInt8 → Nat) : Bytes → Reading
  | a :: b :: rest =>
    let high := unit a b
    if isLowSurrogate high then .malformed
    else if !isHighSurrogate high then .character high rest
    else match rest with
      | c :: d :: rest =>
        let low := unit c d
        if isLowSurrogate low then
          .character (0x10000 + (high - 0xd800) * 1024 + (low - 0xdc00)) rest
        else .malformed
      | _ => .incomplete
  | _ => .incomplete

/-- What stands first in a text. -/
def read : Encoding → Bytes → Reading
  | utf8 => readUtf8
  | utf16LittleEndian => readUtf16 fun a b => b.toNat * 256 + a.toNat
  | utf16BigEndian => readUtf16 fun a b => a.toNat * 256 + b.toNat

/-- The first characters of a text, at most so many, and what follows them. They end before an
incomplete one. -/
def charactersWithin? (e : Encoding) : Nat → Bytes → Option (List Char × Bytes)
  | 0, s => some ([], s)
  | n + 1, s =>
    match e.read s with
    | .incomplete => some ([], s)
    | .malformed => none
    | .character code rest =>
      if isAllowed code then
        (charactersWithin? e n rest).map fun (cs, left) => (Char.ofNat code :: cs, left)
      else none

/-- The complete characters of a text, and what follows them. -/
def characters? (e : Encoding) (s : Bytes) : Option (List Char × Bytes) :=
  charactersWithin? e s.length s

end Encoding

end AvroIdl.Yaml
