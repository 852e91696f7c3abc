import AvroIdl.Text.Rune

/-!
# Characters of YAML

The classes of characters that the grammar of YAML tells apart. The end of the text is `none`.
-/

namespace AvroIdl.Yaml

def tab : Char := Char.ofNat 0x09
def lineFeed : Char := Char.ofNat 0x0a
def carriageReturn : Char := Char.ofNat 0x0d
def doubleQuote : Char := Char.ofNat 0x22
def singleQuote : Char := Char.ofNat 0x27
def backslash : Char := Char.ofNat 0x5c
def backquote : Char := Char.ofNat 0x60
def openBrace : Char := Char.ofNat 0x7b
def closeBrace : Char := Char.ofNat 0x7d
def nextLine : Char := Char.ofNat 0x85
def lineSeparator : Char := Char.ofNat 0x2028
def paragraphSeparator : Char := Char.ofNat 0x2029
def byteOrderMark : Char := Char.ofNat 0xfeff

/-- The UTF-8 bytes of a character. -/
def encode (c : Char) : Bytes := Rune.encode c.toNat

def isBlank (c : Char) : Bool := c = ' ' || c = tab

/-- Whether a character ends a line. -/
def isBreak (c : Char) : Bool :=
  c = lineFeed || c = carriageReturn || c = nextLine || c = lineSeparator || c = paragraphSeparator

/-- Whether a line ends before this character. -/
def endsLine (c : Option Char) : Bool := c.all isBreak

/-- Whether a word ends before this character. -/
def endsWord (c : Option Char) : Bool := c.all fun c => isBlank c || isBreak c

/-- Whether a character may stand in the name of an anchor, a directive or a handle. -/
def isNameChar (c : Char) : Bool := c.isAlphanum || c = '_' || c = '-'

/-- The value of a hexadecimal digit. -/
def hexDigit? (c : Char) : Option Nat := if c.toNat < 0x80 then hexValue? c.toNat.toUInt8 else none

/-- Whether a character divides what stands in brackets or braces. -/
def isFlowIndicator (c : Char) : Bool :=
  c = ',' || c = '?' || c = '[' || c = ']' || c = openBrace || c = closeBrace

/-- The characters that begin something other than a plain scalar. -/
def indicators : List Char :=
  ['-', '?', ':', ',', '[', ']', openBrace, closeBrace, '#', '&', '*', '!', '|', '>', singleQuote,
    doubleQuote, '%', '@', backquote]

/-- Whether a plain scalar begins with this character, given the one after it and whether it stands
in brackets or braces. -/
def startsPlain (inFlow : Bool) (c : Char) (next : Option Char) : Bool :=
  !(isBlank c || isBreak c || indicators.contains c) || (c = '-' && !next.any isBlank) ||
    (!inFlow && (c = '?' || c = ':') && !endsWord next)

end AvroIdl.Yaml
