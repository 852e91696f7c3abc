import AvroIdl.Yaml.Token.Blank

/-!
# Scalars of YAML

Scalars are plain, in single or double quotes, or blocks of lines. Plain and quoted ones may go over
several lines: one line end is read as a space, and more than one as one less.
-/

namespace AvroIdl.Yaml

/-- Blanks and line ends between two words of a scalar. -/
structure Gap where
  /-- The blanks, if there is no line end. -/
  blanks : Bytes := []
  /-- Whether there is a line end. -/
  isBroken : Bool := false
  /-- The first line end. It is empty where a backslash takes it away. -/
  first : Bytes := []
  /-- The other line ends. -/
  others : Bytes := []
  deriving DecidableEq, Repr

/-- A gap as it is read. -/
def Gap.text (g : Gap) : Bytes :=
  if !g.isBroken then g.blanks
  else if g.first = encode lineFeed then if g.others.isEmpty then encode ' ' else g.others
  else g.first ++ g.others

namespace Scan

/-- Whether a document begins or ends at this line. -/
def isAtMark : Scan Bool := do
  let c ← cursor
  return c.isMark '-' || c.isMark '.'

/-- Passes over blanks and line ends within so many steps, and adds them to a gap. A tab on a new
line must not stand before the column `floor`. -/
def gapWithin (floor : Nat) : Nat → Gap → Scan Gap
  | 0, g => return g
  | n + 1, g => do
    match ← char? with
    | none => return g
    | some c =>
      if isBlank c then
        guard (!(g.isBroken && c = tab && (← cursor).column < floor))
        skip
        need 1
        gapWithin floor n (if g.isBroken then g else { g with blanks := g.blanks ++ encode c })
      else if isBreak c then
        need 2
        let text ← readLine
        need 1
        gapWithin floor n
          (if g.isBroken then { g with others := g.others ++ text }
            else { isBroken := true, first := text })
      else return g

/-- Passes over blanks and line ends, and adds them to a gap. -/
def gap (floor : Nat) (g : Gap) : Scan Gap := do gapWithin floor (← get).size g

/-! ## Plain scalars -/

/-- Passes over a word of a plain scalar within so many steps, and returns it. -/
def plainWordWithin : Nat → Scan Bytes
  | 0 => return []
  | n + 1 => do
    match ← char? with
    | none => return []
    | some c =>
      let isColon := c = ':' && endsWord (← charAt? 1)
      if isBlank c || isBreak c || isColon || ((← get).inFlow && isFlowIndicator c) then return []
      else
        skip
        need 2
        return encode c ++ (← plainWordWithin n)

/-- Passes over the words of a plain scalar after a gap, within so many steps. Returns its text and
the gap after it. -/
def plainWithin (floor : Nat) : Nat → Gap → Scan (Bytes × Gap)
  | 0, g => return ([], g)
  | n + 1, g => do
    need 4
    if (← isAtMark) || (← char?) = some '#' then return ([], g)
    let word ← plainWordWithin (← get).size
    if word.isEmpty then return ([], g)
    let text := g.text ++ word
    if !(← char?).any fun c => isBlank c || isBreak c then return (text, {})
    need 1
    let g ← gap floor {}
    if !(← get).inFlow && (← cursor).column < floor then return (text, g)
    let (more, g) ← plainWithin floor n g
    return (text ++ more, g)

/-- Passes over a plain scalar. If a line ends after it, a key may begin. -/
def plainScalar : Scan Token := do
  let (text, g) ← plainWithin (← get).floor (← get).size {}
  if g.isBroken then allowKey true
  return .scalar text true

/-! ## Quoted scalars -/

/-- The characters that a backslash and a letter stand for. -/
def escapes : List (Char × Nat) :=
  [('0', 0x00), ('a', 0x07), ('b', 0x08), ('t', 0x09), (tab, 0x09), ('n', 0x0a), ('v', 0x0b),
    ('f', 0x0c), ('r', 0x0d), ('e', 0x1b), (' ', 0x20), (doubleQuote, 0x22), (singleQuote, 0x27),
    (backslash, 0x5c), ('N', 0x85), ('_', 0xa0), ('L', 0x2028), ('P', 0x2029)]

/-- The letters that announce the code of a character, with the number of its digits. -/
def codeEscapes : List (Char × Nat) := [('x', 2), ('u', 4), ('U', 8)]

/-- Passes over so many hexadecimal digits, and returns the number that they spell after `value`. -/
def hexNumber : Nat → Nat → Scan Nat
  | 0, value => return value
  | n + 1, value => do
    let c ← (← char?).bind hexDigit?
    skip
    hexNumber n (value * 16 + c)

/-- Passes over a backslash and what belongs to it, and returns the character that it stands for. -/
def escape : Scan Bytes := do
  let c ← (← charAt? 1)
  match escapes.lookup c, codeEscapes.lookup c with
  | some code, _ =>
    skip
    skip
    return Rune.encode code
  | none, some digits =>
    skip
    skip
    need digits
    let code ← hexNumber digits 0
    guard (!(0xd800 ≤ code && code ≤ 0xdfff) && code ≤ 0x10ffff)
    return Rune.encode code
  | none, none => failure

/-- The mark around a quoted scalar. -/
def quoteMark (single : Bool) : Char := if single then singleQuote else doubleQuote

/-- Passes over a word of a quoted scalar within so many steps. Returns it, and the start of the gap
after it. -/
def quotedWordWithin (single : Bool) : Nat → Scan (Bytes × Gap)
  | 0 => return ([], {})
  | n + 1 => do
    match ← char? with
    | none => return ([], {})
    | some c =>
      let next ← charAt? 1
      if isBlank c || isBreak c then return ([], {})
      else if single && c = singleQuote && next = some singleQuote then
        skip
        skip
        need 2
        let (word, g) ← quotedWordWithin single n
        return (encode singleQuote ++ word, g)
      else if c = quoteMark single then return ([], {})
      else if !single && c = backslash && next.any isBreak then
        need 3
        skip
        skipLine
        return ([], { isBroken := true })
      else
        let text ← if !single && c = backslash then escape else do skip; pure (encode c)
        need 2
        let (word, g) ← quotedWordWithin single n
        return (text ++ word, g)

/-- Passes over the words of a quoted scalar within so many steps, up to the quote that ends it. -/
def quotedWithin (single : Bool) : Nat → Scan Bytes
  | 0 => failure
  | n + 1 => do
    need 4
    guard !(← isAtMark)
    guard (← char?).isSome
    let (word, g) ← quotedWordWithin single (← get).size
    need 1
    if (← char?) = some (quoteMark single) then return word
    let g ← gap 0 g
    return word ++ g.text ++ (← quotedWithin single n)

/-- Passes over a quoted scalar. -/
def quotedScalar (single : Bool) : Scan Token := do
  skip
  let text ← quotedWithin single (← get).size
  skip
  return .scalar text false

/-! ## Blocks of lines -/

/-- What is kept of the line ends after a block. -/
inductive Chomping where
  | strip
  | clip
  | keep
  deriving DecidableEq, Repr

/-- Passes over a sign for the line ends after a block. -/
def chomping? : Scan (Option Chomping) := do
  match ← char? with
  | some '+' =>
    skip
    return some .keep
  | some '-' =>
    skip
    return some .strip
  | _ => return none

/-- Passes over a digit that gives the indentation of a block. -/
def indentation? : Scan (Option Nat) := do
  match ← char? with
  | none => return none
  | some c =>
    if c.isDigit then
      guard (c ≠ '0')
      skip
      return some (c.toNat - 0x30)
    else return none

/-- Passes over the signs after the mark of a block, in either order. -/
def blockHeader : Scan (Chomping × Option Nat) := do
  need 1
  match ← chomping? with
  | some c =>
    need 1
    return (c, ← indentation?)
  | none =>
    match ← indentation? with
    | some i =>
      need 1
      return ((← chomping?).getD .clip, some i)
    | none => return (.clip, none)

/-- Passes over the blanks and the comment at the end of a line, and over the line end. -/
def endLine : Scan Unit := do
  need 1
  skipWhile isBlank
  if (← char?) = some '#' then skipToBreak
  guard (endsLine (← char?))
  if (← char?).isSome then
    need 2
    skipLine

/-- Passes over the indentation of lines and over empty lines, within so many steps. Returns the line
ends, and the longest indentation. Without an indentation of the block all spaces belong to it. -/
def blockBreaksWithin (indent : Option Nat) : Nat → Nat → Scan (Bytes × Nat)
  | 0, most => return ([], most)
  | n + 1, most => do
    need 1
    let isOutside (column : Nat) : Bool := indent.all (column < ·)
    let spaces := indent.elim (← get).size (· - (← cursor).column)
    skipWhileWithin (· = ' ') spaces
    let column := (← cursor).column
    let most := max most column
    guard (!(isOutside column && (← char?) = some tab))
    if (← char?).any isBreak then
      need 2
      let text ← readLine
      let (more, most) ← blockBreaksWithin indent n most
      return (text ++ more, most)
    else return ([], most)

/-- Passes over the indentation of lines and over empty lines. -/
def blockBreaks (indent : Option Nat) : Scan (Bytes × Nat) := do
  blockBreaksWithin indent (← get).size 0

/-- The line ends between two lines of a block as they are read: the one after the first line, and
those of empty lines. Lines are joined unless one of them begins with a blank. -/
def joinLines (folded : Bool) (first others : Bytes) : Bytes :=
  if folded && first.head? = some 0x0a then
    if others.isEmpty then encode ' ' else others
  else first ++ others

/-- Passes over the lines of a block within so many steps, after the line ends `first` and `others`.
Returns its text and the line ends after it. -/
def blockLinesWithin (literal : Bool) (indent : Nat) :
    Nat → Bool → Bytes → Bytes → Scan (Bytes × Bytes × Bytes)
  | 0, _, first, others => return ([], first, others)
  | n + 1, afterBlank, first, others => do
    if (← cursor).column ≠ indent || (← char?).isNone then return ([], first, others)
    let isIndented := (← char?).any isBlank
    let joint := joinLines (!literal && !afterBlank && !isIndented) first others
    let line ← readWhile fun c => !isBreak c
    need 2
    let first ← readLine
    let (others, _) ← blockBreaks (some indent)
    let (more, first, others) ← blockLinesWithin literal indent n isIndented first others
    return (joint ++ line ++ more, first, others)

/-- Passes over a scalar that is a block of lines. -/
def blockScalar (literal : Bool) : Scan Token := do
  skip
  let (chomping, increment) ← blockHeader
  endLine
  let floor := (← get).floor
  let given := increment.map (· + (floor - 1))
  let (others, most) ← blockBreaks given
  let indent := given.getD (max most (max floor 1))
  need 1
  let (text, first, others) ← blockLinesWithin literal indent (← get).size false [] others
  let tail :=
    match chomping with
    | .strip => []
    | .clip => first
    | .keep => first ++ others
  return .scalar (text ++ tail) false

end Scan

end AvroIdl.Yaml
