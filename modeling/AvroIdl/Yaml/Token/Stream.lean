import AvroIdl.Yaml.Token.Tag

/-!
# Finding the tokens of YAML

`Scan.peek` shows the next token and `Scan.take` takes it. Three tokens are found before the first of
them is shown, and more as long as it may begin a key. What is malformed among them counts.
-/

namespace AvroIdl.Yaml.Scan

/-! ## Tokens of one kind -/

/-- Begins the text. -/
def startStream : Scan Unit := do
  modify fun l => { l with started := true, keyAllowed := true }
  push .streamStart

/-- Ends all that is open before a line that divides documents. -/
def endBlocks : Scan Unit := do
  closeAllBlocks
  dropKey
  allowKey false

/-- Ends the text, at the start of a line. -/
def endStream : Scan Unit := do
  modify fun l =>
    let c := l.cursor
    if c.column = 0 then l else { l with cursor := { c with column := 0, line := c.line + 1 } }
  endBlocks
  push .streamEnd

def documentMark (t : Token) : Scan Unit := do
  endBlocks
  skip
  skip
  skip
  push t

def flowStart (t : Token) : Scan Unit := do
  saveKey
  openFlow
  allowKey true
  pushSkipping t

def flowEnd (t : Token) : Scan Unit := do
  dropKey
  closeFlow
  allowKey false
  pushSkipping t

def flowEntry : Scan Unit := do
  dropKey
  allowKey true
  pushSkipping .flowEntry

/-- Begins a block at this column, if there are no brackets around it. -/
def openBlockHere (t : Token) : Scan Unit := do
  let l ← get
  if !l.inFlow then
    guard l.keyAllowed
    openBlock l.cursor.column none t

def blockEntry : Scan Unit := do
  openBlockHere .blockSequenceStart
  dropKey
  allowKey true
  pushSkipping .blockEntry

def explicitKey : Scan Unit := do
  openBlockHere .blockMappingStart
  dropKey
  allowKey (!(← get).inFlow)
  pushSkipping .key

/-- The key before a colon at this place, if there is one. -/
def keyBeforeColon? : Scan (Option PendingKey) := do
  if ← isKeyLive (← get).depth then return (← get).keys.head? else return none

/-- Passes over a colon, which may show that a token before it begins a key. -/
def value : Scan Unit := do
  match ← keyBeforeColon? with
  | some k =>
    insertBefore k.number .key
    openBlock k.column (some k.number) .blockMappingStart
    closeKey
    allowKey false
  | none =>
    openBlockHere .blockMappingStart
    allowKey (!(← get).inFlow)
  pushSkipping .value

/-- Passes over a token that may begin a key. -/
def keyed (token : Scan Token) : Scan Unit := do
  saveKey
  allowKey false
  push (← token)

/-- Passes over a block of lines. A key may begin after it. -/
def blockText (literal : Bool) : Scan Unit := do
  dropKey
  allowKey true
  push (← blockScalar literal)

/-! ## All tokens -/

/-- Finds the token that begins with a character. -/
def content (c : Char) : Scan Unit := do
  let inFlow := (← get).inFlow
  let next ← charAt? 1
  let isAlone := inFlow || endsWord next
  if c = '[' then flowStart .flowSequenceStart
  else if c = openBrace then flowStart .flowMappingStart
  else if c = ']' then flowEnd .flowSequenceEnd
  else if c = closeBrace then flowEnd .flowMappingEnd
  else if c = ',' then flowEntry
  else if c = '-' && endsWord next then blockEntry
  else if c = '?' && isAlone then explicitKey
  else if c = ':' && isAlone then value
  else if c = '*' then keyed (Token.alias <$> anchorName)
  else if c = '&' then keyed (Token.anchor <$> anchorName)
  else if c = '!' then keyed tag
  else if c = '|' && !inFlow then blockText true
  else if c = '>' && !inFlow then blockText false
  else if c = singleQuote then keyed (quotedScalar true)
  else if c = doubleQuote then keyed (quotedScalar false)
  else if startsPlain inFlow c next then keyed plainScalar
  else failure

/-- Finds the next token. A comment after it is left out, but not one after a dash. -/
def find : Scan Unit := do
  need 1
  if !(← get).started then startStream
  else
    blanks
    closeBlocks (← cursor).column
    need 4
    let c ← cursor
    match c.char? with
    | none => endStream
    | some a =>
      if c.column = 0 && a = '%' then
        endBlocks
        push (← directive)
      else if c.isMark '-' then documentMark .documentStart
      else if c.isMark '.' then documentMark .documentEnd
      else
        content a
        if (← get).queue.getLast? ≠ some .blockEntry then lineComment

/-- Whether the next token may still begin a key. -/
def isHeadPending : Scan Bool := do
  let l ← get
  match l.held.lookup l.taken with
  | some depth => isKeyLive depth
  | none => return false

/-- The number of tokens that are found before the first of them is shown. -/
def lookahead : Nat := 3

/-- Finds as many tokens as are needed to show the next one, within so many steps. -/
def fillWithin : Nat → Scan Unit
  | 0 => failure
  | n + 1 => do
    let isEnough ← if lookahead ≤ (← get).queue.length then do pure !(← isHeadPending) else pure false
    if !isEnough then
      find
      fillWithin n

/-- The next token. -/
def peek : Scan Token := do
  fillWithin ((← get).size + lookahead + 1)
  (← get).queue.head?

/-- Takes the token that has been shown. -/
def take : Scan Unit := modify fun l => { l with queue := l.queue.tail, taken := l.taken + 1 }

end AvroIdl.Yaml.Scan
