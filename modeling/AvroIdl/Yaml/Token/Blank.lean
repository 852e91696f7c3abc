import AvroIdl.Yaml.Token

/-!
# Blanks and comments between tokens
-/

namespace AvroIdl.Yaml.Scan

/-- How far a comment is looked for. -/
def commentReach : Nat := 512

/-- The distance of the next character outside a class, from a distance on and within so many
steps. -/
def findBeyond (p : Char → Bool) : Nat → Nat → Scan (Option Nat)
  | 0, _ => return none
  | n + 1, distance => do
    need (distance + 1)
    if (← charAt? distance).any p then findBeyond p n (distance + 1) else return some distance

/-- Passes over characters and line ends up to an index, within so many steps. -/
def skipToWithin (index : Nat) : Nat → Scan Unit
  | 0 => pure ()
  | n + 1 => do
    let c ← cursor
    if c.index < index then
      if c.breakSize = 0 then skip else skipLine
      skipToWithin index n

/-- Passes over so many characters, of which some may be line ends. -/
def skipOver (distance : Nat) : Scan Unit := do skipToWithin ((← cursor).index + distance) distance

/-- Passes over the rest of the line. -/
def skipToBreak : Scan Unit := skipWhile fun c => !isBreak c

/-- Passes over a comment on this line, if one follows. -/
def lineComment : Scan Unit := do
  if (← cursor).breaks = 0 then
    if let some distance ← findBeyond isBlank commentReach 0 then
      if (← charAt? distance) = some '#' then
        skipOver distance
        skipToBreak

/-- Passes over the comment that stands here and over those on the lines that follow, within so many
steps. Only blanks and empty lines may stand between them. -/
def commentsWithin : Nat → Scan Unit
  | 0 => pure ()
  | n + 1 => do
    skipToBreak
    let isGap (c : Char) : Bool := isBlank c || c = lineFeed || c = carriageReturn
    if let some distance ← findBeyond isGap commentReach 0 then
      if (← charAt? distance) = some '#' then
        skipOver distance
        commentsWithin n

/-- Passes over comments, and stops at the end of the last one. -/
def comments : Scan Unit := do commentsWithin (← get).size

/-- Passes over blanks, line ends and comments before a token, within so many steps. A key may begin
on a new line outside of brackets. Before one no tabs may stand. A byte order mark at which decoding
went on takes a character from every line. -/
def blanksWithin : Nat → Scan Unit
  | 0 => pure ()
  | n + 1 => do
    need 1
    let c ← cursor
    if c.column = 0 && c.front = some byteOrderMark then skip
    need 1
    let l ← get
    skipWhile fun c => c = ' ' || ((l.inFlow || !l.keyAllowed) && c = tab)
    if (← char?) = some '#' then comments
    if (← char?).any isBreak then
      need 2
      skipLine
      if !(← get).inFlow then allowKey true
      blanksWithin n

/-- Passes over all that stands before the next token. -/
def blanks : Scan Unit := do blanksWithin (← get).size

end AvroIdl.Yaml.Scan
