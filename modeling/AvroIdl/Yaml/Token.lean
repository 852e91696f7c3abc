import AvroIdl.Yaml.Cursor

/-!
# Tokens of YAML

A token is found by looking at the text and at what has been found before it: the indentation of
the blocks around it, the brackets around it, and the places where a key may stand. What shows a key
is the colon after it, so tokens wait in a queue until it is known whether one of them begins a key.
-/

namespace AvroIdl.Yaml

inductive Token where
  | streamStart
  | streamEnd
  /-- The version of YAML that a document asks for. -/
  | version (major minor : Nat)
  /-- A handle, and the text that it stands for in tags. -/
  | handle (name meaning : Bytes)
  | documentStart
  | documentEnd
  | blockSequenceStart
  | blockMappingStart
  | blockEnd
  | flowSequenceStart
  | flowSequenceEnd
  | flowMappingStart
  | flowMappingEnd
  | blockEntry
  | flowEntry
  | key
  | value
  | alias (name : Bytes)
  | anchor (name : Bytes)
  | tag (handle suffix : Bytes)
  /-- A scalar, with whether it is written without quotes. -/
  | scalar (text : Bytes) (plain : Bool)
  deriving DecidableEq, Repr

/-- A token that begins a key if a colon follows in time. -/
structure PendingKey where
  /-- Whether a colon would still show a key. -/
  isOpen : Bool := false
  /-- Whether nothing but a key may stand there. -/
  isRequired : Bool := false
  /-- The number of tokens before it. -/
  number : Nat := 0
  index : Nat := 0
  line : Nat := 0
  column : Nat := 0
  deriving DecidableEq, Repr

/-- What is known between two tokens. -/
structure Lexer where
  cursor : Cursor
  /-- A bound on the steps of any one search in the text. -/
  size : Nat
  started : Bool := false
  /-- The tokens that have been found and not yet taken. -/
  queue : List Token := []
  /-- The number of tokens that have been taken. -/
  taken : Nat := 0
  /-- The indentations of the blocks around this place, the innermost one first. -/
  indents : List Nat := []
  /-- The number of brackets around this place. -/
  depth : Nat := 0
  /-- Whether a key may begin here. -/
  keyAllowed : Bool := false
  /-- The pending keys, one for each bracket around this place and one for the blocks around those,
  the innermost one first. -/
  keys : List PendingKey := [{}]
  /-- The numbers of tokens that are held back, each with the number of brackets around it. -/
  held : List (Nat × Nat) := []
  deriving Repr

/-- The lexer at the start of a text. -/
def Lexer.ofText (s : Bytes) : Lexer := { cursor := Cursor.ofText s, size := s.length + 1 }

/-- Whether this place is in brackets or braces. -/
def Lexer.inFlow (l : Lexer) : Bool := 0 < l.depth

/-- The number of the next token to be found. -/
def Lexer.next (l : Lexer) : Nat := l.taken + l.queue.length

/-- The pending key within so many brackets, and its place among the others. -/
def Lexer.keyWithin? (l : Lexer) (depth : Nat) : Option (Nat × PendingKey) :=
  let i := l.depth - depth
  if depth ≤ l.depth then l.keys[i]?.map fun k => (i, k) else none

/-- The least indentation of what belongs to the innermost block. -/
def Lexer.floor (l : Lexer) : Nat := l.indents.head?.elim 0 (· + 1)

/-- A step of finding tokens, which fails where the text is malformed. -/
abbrev Scan := StateT Lexer Option

namespace Scan

/-! ## Characters -/

/-- Looks ahead so many characters. -/
def need (n : Nat) : Scan Unit := do
  let l ← get
  let cursor ← l.cursor.need? n
  set { l with cursor }

def cursor : Scan Cursor := do return (← get).cursor

def char? : Scan (Option Char) := do return (← cursor).char?

def charAt? (distance : Nat) : Scan (Option Char) := do return (← cursor).charAt? distance

def skip : Scan Unit := modify fun l => { l with cursor := l.cursor.skip }

def skipLine : Scan Unit := modify fun l => { l with cursor := l.cursor.skipLine }

/-- Passes over a line end, if there is one here, and returns it as it is read. -/
def readLine : Scan Bytes := do
  let text := (← cursor).breakText
  skipLine
  return text

/-- Passes over characters of a class, at most so many. -/
def skipWhileWithin (p : Char → Bool) : Nat → Scan Unit
  | 0 => pure ()
  | n + 1 => do
    if (← char?).any p then
      skip
      need 1
      skipWhileWithin p n

/-- Passes over characters of a class. -/
def skipWhile (p : Char → Bool) : Scan Unit := do skipWhileWithin p (← get).size

/-- Passes over characters of a class, at most so many, and returns them. -/
def readWhileWithin (p : Char → Bool) : Nat → Scan Bytes
  | 0 => pure []
  | n + 1 => do
    match ← char? with
    | none => return []
    | some c =>
      if p c then
        skip
        need 1
        return encode c ++ (← readWhileWithin p n)
      else return []

/-- Passes over characters of a class, and returns them. -/
def readWhile (p : Char → Bool) : Scan Bytes := do readWhileWithin p (← get).size

/-- Fails unless a character stands here, and passes over it. -/
def expect (c : Char) : Scan Unit := do
  guard ((← char?) = some c)
  skip

/-! ## The queue -/

/-- Appends a token. -/
def push (t : Token) : Scan Unit := modify fun l => { l with queue := l.queue ++ [t] }

/-- Inserts a token before the one with a number. If that one is taken, the token comes last. -/
def insertBefore (number : Nat) (t : Token) : Scan Unit :=
  modify fun l =>
    let i := if number < l.taken then l.queue.length else number - l.taken
    { l with queue := l.queue.insertIdx i t }

/-- Passes over a character that is a token. -/
def pushSkipping (t : Token) : Scan Unit := do
  skip
  push t

def allowKey (allowed : Bool) : Scan Unit := modify fun l => { l with keyAllowed := allowed }

/-! ## Pending keys -/

/-- The number of characters, from the start of a key, in which its colon stands. -/
def keyReach : Nat := 1024

/-- Whether a colon at this place would show the key within so many brackets. It may come too late,
but not for a key that is required. -/
def isKeyLive (depth : Nat) : Scan Bool := do
  let l ← get
  match l.keyWithin? depth with
  | none => return false
  | some (i, k) =>
    if !k.isOpen then return false
    else if k.line < l.cursor.line || k.index + keyReach < l.cursor.index then
      guard !k.isRequired
      set { l with keys := l.keys.set i { k with isOpen := false } }
      return false
    else return true

/-- Closes the innermost pending key. Its token is no longer held back. -/
def closeKey : Scan Unit :=
  modify fun l =>
    match l.keys with
    | [] => l
    | k :: keys =>
      { l with
        keys := { k with isOpen := false } :: keys
        held := l.held.filter fun h => h.1 ≠ k.number }

/-- Gives up the innermost pending key. -/
def dropKey : Scan Unit := do
  if let some k := (← get).keys.head?.filter (·.isOpen) then
    guard !k.isRequired
    closeKey

/-- Makes the next token a pending key and holds it back, if a key may begin here. -/
def saveKey : Scan Unit := do
  if (← get).keyAllowed then
    dropKey
    modify fun l =>
      let key : PendingKey :=
        { isOpen := true
          isRequired := !l.inFlow && l.indents.head? = some l.cursor.column
          number := l.next
          index := l.cursor.index
          line := l.cursor.line
          column := l.cursor.column }
      { l with keys := key :: l.keys.tail, held := (l.next, l.depth) :: l.held }

/-! ## Brackets and blocks -/

/-- The greatest number of brackets or of blocks around a place. -/
def maxDepth : Nat := 10000

/-- Enters brackets. -/
def openFlow : Scan Unit := do
  modify fun l => { l with keys := { number := l.next } :: l.keys, depth := l.depth + 1 }
  guard ((← get).depth ≤ maxDepth)

/-- Leaves brackets, if there are any. What has been saved last in them is no longer held back, or
else the bracket itself. -/
def closeFlow : Scan Unit := do
  if (← get).inFlow then
    closeKey
    modify fun l => { l with keys := l.keys.tail, depth := l.depth - 1 }

/-- Begins a block, if a column is to the right of the blocks around it. The token stands before the
one with the given number, or last. -/
def openBlock (column : Nat) (number : Option Nat) (t : Token) : Scan Unit := do
  let l ← get
  if !l.inFlow && l.floor ≤ column then
    set { l with indents := column :: l.indents }
    guard (l.indents.length < maxDepth)
    match number with
    | some n => insertBefore n t
    | none => push t

/-- Ends the blocks to the right of a column. -/
def closeBlocks (column : Nat) : Scan Unit :=
  modify fun l =>
    if l.inFlow then l
    else
      let ended := l.indents.takeWhile (column < ·)
      { l with
        indents := l.indents.drop ended.length
        queue := l.queue ++ List.replicate ended.length Token.blockEnd }

/-- Ends all blocks, unless there are brackets around this place. -/
def closeAllBlocks : Scan Unit :=
  modify fun l =>
    if l.inFlow then l
    else
      { l with indents := [], queue := l.queue ++ List.replicate l.indents.length Token.blockEnd }

end Scan

end AvroIdl.Yaml
