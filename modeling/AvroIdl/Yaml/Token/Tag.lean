import AvroIdl.Text.Integer
import AvroIdl.Yaml.Token.Scalar

/-!
# Anchors, tags and directives of YAML
-/

namespace AvroIdl.Yaml.Scan

/-! ## Anchors -/

/-- Whether a character may follow the name of an anchor. -/
def endsAnchor (c : Option Char) : Bool :=
  endsWord c || c.any ['?', ':', ',', ']', closeBrace, '%', '@', backquote].contains

/-- Passes over a mark and the name after it. -/
def anchorName : Scan Bytes := do
  skip
  need 1
  let name ← readWhile isNameChar
  guard (!name.isEmpty && endsAnchor (← char?))
  return name

/-! ## Tags -/

/-- Whether a character may stand in a tag. -/
def isTagChar (c : Char) : Bool :=
  isNameChar c || [';', '/', '?', ':', '@', '&', '=', '+', '$', ',', '.', '!', '~', '*', singleQuote,
    '(', ')', '[', ']', '%'].contains c

/-- Passes over a percent sign and two hexadecimal digits, and returns the byte that they spell. -/
def escapedByte : Scan UInt8 := do
  need 3
  expect '%'
  return (← hexNumber 2 0).toUInt8

/-- Passes over so many bytes in the middle of a character. -/
def escapedFollowers : Nat → Scan Bytes
  | 0 => return []
  | n + 1 => do
    let b ← escapedByte
    guard (Rune.continues b)
    return b :: (← escapedFollowers n)

/-- Passes over a character of which each byte is spelled after a percent sign. -/
def escapedCharacter : Scan Bytes := do
  let lead ← escapedByte
  let n ← Encoding.followers? lead
  return lead :: (← escapedFollowers n)

/-- Passes over the characters of a tag within so many steps, and returns them. -/
def tagTextWithin : Nat → Scan Bytes
  | 0 => return []
  | n + 1 => do
    match ← char? with
    | none => return []
    | some c =>
      if isTagChar c then
        let text ← if c = '%' then escapedCharacter else do skip; pure (encode c)
        need 1
        return text ++ (← tagTextWithin n)
      else return []

/-- Passes over the characters of a tag, and returns them. -/
def tagText : Scan Bytes := do
  need 1
  tagTextWithin (← get).size

/-- Passes over an exclamation mark, over a name after it and over the mark after that, if there is
one. Returns the name, and whether it is a handle. -/
def handleName : Scan (Bytes × Bool) := do
  expect '!'
  need 1
  let name ← readWhile isNameChar
  if (← char?) = some '!' then
    skip
    return (name, true)
  else return (name, false)

/-- The text of a handle. -/
def handleText (name : Bytes) : Bytes := Bytes.join ["!", name, "!"]

/-- Passes over a tag. It is written in full in angle brackets, or with a handle. A name that is no
handle belongs to the handle of one mark, and the mark alone is a tag. -/
def tag : Scan Token := do
  need 2
  let token ←
    if (← charAt? 1) = some '<' then do
      skip
      skip
      let text ← tagText
      guard !text.isEmpty
      expect '>'
      pure (Token.tag [] text)
    else do
      let (name, isHandle) ← handleName
      let text ← tagText
      if isHandle then
        guard !text.isEmpty
        pure (Token.tag (handleText name) text)
      else if (name ++ text).isEmpty then pure (Token.tag [] "!")
      else pure (Token.tag "!" (name ++ text))
  need 1
  guard (endsWord (← char?))
  return token

/-! ## Directives -/

/-- Passes over at most two digits, which have to be all, and returns the number that they spell. -/
def versionNumber : Scan Nat := do
  need 1
  let digits ← readWhile Char.isDigit
  guard (digits.length ≤ 2)
  Bytes.digits? digits

/-- Passes over the version of YAML that a document asks for. -/
def version : Scan Token := do
  need 1
  skipWhile isBlank
  let major ← versionNumber
  expect '.'
  let minor ← versionNumber
  return .version major minor

/-- Passes over a handle, and over the text that it stands for. -/
def handle : Scan Token := do
  need 1
  skipWhile isBlank
  let (name, isHandle) ← handleName
  guard (isHandle || name.isEmpty)
  need 1
  guard ((← char?).any isBlank)
  skipWhile isBlank
  let meaning ← tagText
  guard !meaning.isEmpty
  need 1
  guard (endsWord (← char?))
  return .handle (if isHandle then handleText name else "!") meaning

/-- Passes over a line with a directive. -/
def directive : Scan Token := do
  skip
  need 1
  let name ← readWhile isNameChar
  guard (endsWord (← char?))
  let token ←
    if name = Bytes.ofString "YAML" then version
    else if name = Bytes.ofString "TAG" then handle
    else failure
  endLine
  return token

end AvroIdl.Yaml.Scan
