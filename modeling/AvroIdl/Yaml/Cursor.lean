import AvroIdl.Yaml.Encoding

/-!
# Places in a YAML text

A text is decoded part by part, as far as a reader looks ahead, so that what is wrong with a later
part counts only for a reader that gets there.
-/

namespace AvroIdl.Yaml

/-- The number of bytes that are decoded at once. -/
def partSize : Nat := 512

/-- A place in a text. -/
structure Cursor where
  encoding : Encoding
  /-- What has not been decoded. -/
  bytes : Bytes
  /-- The size of the next part, in bytes. -/
  part : Nat := partSize
  /-- The decoded characters from here on. -/
  ahead : List Char := []
  /-- How often the end of the text has been found after them. -/
  ends : Nat := 0
  /-- The character at which decoding last went on. -/
  front : Option Char := none
  /-- The number of characters before this place. -/
  index : Nat := 0
  line : Nat := 0
  column : Nat := 0
  /-- The number of line ends since the last character other than a blank. -/
  breaks : Nat := 0
  deriving Repr

namespace Cursor

/-- The start of a text. -/
def ofText (s : Bytes) : Cursor :=
  let (encoding, mark) := Encoding.ofMark s
  { encoding, bytes := s.drop mark, part := partSize - mark }

/-- Whether so many characters are decoded, where the end counts as often as it has been found. -/
def holds (c : Cursor) (n : Nat) : Bool := n ≤ (c.ahead.take n).length + c.ends

/-- Decodes the next part. A text must not end within a character. -/
def decode? (c : Cursor) : Option Cursor := do
  let (found, left) ← c.encoding.characters? (c.bytes.take c.part)
  let bytes := left ++ c.bytes.drop c.part
  if found.isEmpty && bytes.length ≤ c.part then none
  else some { c with ahead := c.ahead ++ found, bytes, part := partSize }

/-- Decodes parts until so many characters are there, within so many steps. -/
def fillWithin? (n : Nat) : Nat → Cursor → Option Cursor
  | 0, c => some c
  | k + 1, c =>
    if c.holds n then some c
    else if c.bytes.isEmpty then some { c with ends := c.ends + 1 }
    else c.decode?.bind (fillWithin? n k)

/-- Decodes until so many characters are there or the text ends. -/
def need? (c : Cursor) (n : Nat) : Option Cursor :=
  if c.holds n then some c
  else (fillWithin? n (n + 1) c).map fun c => { c with front := c.ahead.head? }

/-- The character at this place. -/
def char? (c : Cursor) : Option Char := c.ahead.head?

/-- The character at a distance from here. -/
def charAt? (c : Cursor) (distance : Nat) : Option Char := c.ahead[distance]?

/-- The place after a character. -/
def skip (c : Cursor) : Cursor :=
  match c.ahead with
  | [] => { c with ends := c.ends - 1, index := c.index + 1, column := c.column + 1, breaks := 0 }
  | a :: rest =>
    { c with
      ahead := rest
      index := c.index + 1
      column := c.column + 1
      breaks := if isBlank a then c.breaks else 0 }

/-- The number of characters in the line end at this place. -/
def breakSize (c : Cursor) : Nat :=
  if !c.char?.any isBreak then 0
  else if c.char? = some carriageReturn && c.charAt? 1 = some lineFeed then 2
  else 1

/-- The start of the next line, from the end of this one. -/
def skipLine (c : Cursor) : Cursor :=
  let size := c.breakSize
  if size = 0 then c
  else
    { c with
      ahead := c.ahead.drop size
      index := c.index + size
      line := c.line + 1
      column := 0
      breaks := c.breaks + 1 }

/-- The line end at this place as it is read. The two separators of Unicode stay as they are. -/
def breakText (c : Cursor) : Bytes :=
  match c.char? with
  | none => []
  | some a =>
    if a = lineSeparator || a = paragraphSeparator then encode a
    else if isBreak a then encode lineFeed
    else []

/-- Whether one of the lines that divide documents begins here. -/
def isMark (c : Cursor) (sign : Char) : Bool :=
  c.column = 0 && c.ahead.take 3 = [sign, sign, sign] && endsWord (c.charAt? 3)

end Cursor

end AvroIdl.Yaml
