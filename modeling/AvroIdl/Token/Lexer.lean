import AvroIdl.Token

/-!
# Reading tokens

`Token.next?` takes the first token off a text. Every token takes at least one byte, and malformed
text gives `error` tokens, so the tokens of a text are a partition of it. What a token is depends
only on the text from its first byte on: reading can start again at every token.
-/

namespace AvroIdl

/-- Whether a byte can begin an identifier. -/
def isIdentStart (c : UInt8) : Bool := isLetter c || c = 0x5f

/-- Whether a byte can stand inside an identifier. -/
def isIdentPart (c : UInt8) : Bool := isIdentStart c || isDigit c

/-- Whether a byte is a blank that does not end a line. -/
def isBlank (c : UInt8) : Bool := c = 0x20 || c = 0x09 || c = 0x0c

/-- Whether a byte ends a line. -/
def isLineEnd (c : UInt8) : Bool := c = 0x0a || c = 0x0d

/-- The class of the token at the start of a text, and how many bytes follow its first one. -/
structure Scan where
  kind : TokenKind
  extra : Nat
  error : Option LexError := none
  deriving DecidableEq, Repr

namespace Scan

/-- A piece of text that is no token. -/
def malformed (cause : LexError) (extra : Nat) : Scan := ⟨.error, extra, some cause⟩

/-- The number of bytes up to and including the first `*/`. -/
def commentEnd? : Bytes → Option Nat
  | [] => none
  | c :: rest =>
    if c = 0x2a && rest.head? = some 0x2f then some 2 else (commentEnd? rest).map (· + 1)

/-- A block comment documents what follows it if it starts with two stars and holds more. -/
def isDoc : Bytes → Bool
  | s :: c :: _ :: _ => s = 0x2a && c ≠ 0x2f
  | _ => false

/-- The token at a slash. -/
def slash : Bytes → Scan
  | [] => malformed .unexpectedCharacter 0
  | c :: rest =>
    if c = 0x2f then ⟨.lineComment, 1 + (rest.takeWhile fun c => !isLineEnd c).length, none⟩
    else if c = 0x2a then
      match commentEnd? rest with
      | some n => ⟨if isDoc rest then .docComment else .blockComment, 1 + n, none⟩
      | none => malformed .unterminatedComment (1 + rest.length)
    else malformed .unexpectedCharacter 0

/-- The token at a double quote, of which `taken` more bytes have been read. A line end or the end
of the text leaves it unterminated. -/
def string (taken : Nat) (escaped : Bool) : Bytes → Scan
  | [] => malformed .unterminatedString taken
  | c :: rest =>
    if isLineEnd c then malformed .unterminatedString taken
    else if escaped then string (taken + 1) false rest
    else if c = 0x5c then string (taken + 1) true rest
    else if c = 0x22 then ⟨.stringLit, taken + 1, none⟩
    else string (taken + 1) false rest

/-- The token at a backquote. -/
def quotedIdent (rest : Bytes) : Scan :=
  let part := rest.takeWhile isIdentPart
  if (rest.headD 0 |> isIdentStart) && (rest.drop part.length).head? = some 0x60 then
    ⟨.ident, part.length + 1, none⟩
  else malformed .invalidIdentifier part.length

/-- The number of bytes of an identifier that follow its first one. Dots and dashes join the parts
of an identifier. -/
def identLength : Bytes → Nat
  | [] => 0
  | c :: rest =>
    if isIdentPart c then 1 + identLength rest
    else if (c = 0x2e || c = 0x2d) && (rest.head?.any isIdentStart) then 1 + identLength rest
    else 0

/-- The number of digits at the start of a text. -/
def digitCount (s : Bytes) : Nat := (s.takeWhile isDigit).length

/-- The length of the fraction of a number at the start of a text. -/
def fractionLength : Bytes → Nat
  | c :: rest => if c = 0x2e && rest.head?.any isDigit then 1 + digitCount rest else 0
  | [] => 0

/-- The length of the exponent of a number at the start of a text. -/
def exponentLength : Bytes → Nat
  | c :: rest =>
    let sign := if rest.head? = some 0x2b || rest.head? = some 0x2d then 1 else 0
    let digits := digitCount (rest.drop sign)
    if (c = 0x65 || c = 0x45) && digits ≠ 0 then 1 + sign + digits else 0
  | [] => 0

/-- Whether a byte is a letter that names the type of a number. -/
def isNumberSuffix (c : UInt8) : Bool :=
  c = 0x4c || c = 0x6c || c = 0x66 || c = 0x46 || c = 0x64 || c = 0x44

/-- The length of the suffix of a number at the start of a text. -/
def suffixLength : Bytes → Nat
  | c :: rest => if isNumberSuffix c && !rest.head?.any isIdentPart then 1 else 0
  | [] => 0

/-- The class and length of an unsigned number in base ten. -/
def decimalNumber (s : Bytes) : TokenKind × Nat :=
  let whole := digitCount s
  let fraction := fractionLength (s.drop whole)
  let exponent := exponentLength (s.drop (whole + fraction))
  let suffix := suffixLength (s.drop (whole + fraction + exponent))
  (if fraction = 0 && exponent = 0 then .intLit else .floatLit, whole + fraction + exponent + suffix)

/-- The class and length of an unsigned number at the start of a text. -/
def unsignedNumber (s : Bytes) : TokenKind × Nat :=
  match s with
  | z :: x :: rest =>
    if z = 0x30 && (x = 0x78 || x = 0x58) then
      let digits := (rest.takeWhile isHexDigit).length
      (if digits = 0 then .error else .intLit, 2 + digits)
    else decimalNumber s
  | _ => decimalNumber s

/-- The token at a digit, or at a minus sign before one, where `sign` counts the minus sign.
Letters and digits after the number make all of it invalid. -/
def number (sign : Nat) (s : Bytes) : Scan :=
  let (kind, length) := unsignedNumber s
  let trailing := ((s.drop length).takeWhile isIdentPart).length
  if kind = .error || trailing ≠ 0 then
    malformed .invalidNumber (sign + length + trailing - 1)
  else ⟨kind, sign + length - 1, none⟩

/-- The text after a minus sign that makes it minus infinity. -/
def infinity : Bytes := "Infinity"

/-- The token at a minus sign. -/
def minus (rest : Bytes) : Scan :=
  if infinity.isPrefixOf rest && !(rest.drop infinity.length).head?.any isIdentPart then
    ⟨.floatLit, infinity.length, none⟩
  else if rest.head?.any isDigit then number 1 rest
  else malformed .unexpectedCharacter 0

/-- The kind of a word that begins like an identifier. -/
def wordKind (word : Bytes) : TokenKind :=
  if (Keyword.ofText? word).isSome then .keyword
  else if word = Bytes.ofString "true" || word = Bytes.ofString "false" then .boolLit
  else .ident

/-- The token at a character that no other token begins with. -/
def other (c : UInt8) (rest : Bytes) : Scan :=
  match Rune.read c rest with
  | (.stray _, _) => malformed .invalidUtf8 0
  | (.scalar code, extra) =>
    if code = 0xa0 || code = 0xfeff then ⟨.space, extra, none⟩
    else if code < 0x20 || code = 0x7f then malformed .controlCharacter extra
    else malformed .unexpectedCharacter extra

/-- The kind of a punctuation character. -/
def punctuation? (c : UInt8) : Option TokenKind :=
  match Char.ofUInt8 c with
  | '@' => some .atSign
  | ':' => some .colon
  | ',' => some .comma
  | ';' => some .semi
  | '.' => some .dot
  | '=' => some .eq
  | '?' => some .question
  | '<' => some .lt
  | '>' => some .gt
  | '\x7b' => some .openCurl
  | '\x7d' => some .closeCurl
  | '(' => some .openParen
  | ')' => some .closeParen
  | '[' => some .openSquare
  | ']' => some .closeSquare
  | _ => none

/-- The token at byte `c`, which `rest` follows. -/
def first (c : UInt8) (rest : Bytes) : Scan :=
  if isBlank c then ⟨.space, (rest.takeWhile isBlank).length, none⟩
  else if c = 0x0a then ⟨.newline, 0, none⟩
  else if c = 0x0d then ⟨.newline, if rest.head? = some 0x0a then 1 else 0, none⟩
  else if c = 0x2f then slash rest
  else if c = 0x22 then string 0 false rest
  else if c = 0x60 then quotedIdent rest
  else if let some kind := punctuation? c then ⟨kind, 0, none⟩
  else if c = 0x2d then minus rest
  else if isDigit c then number 0 (c :: rest)
  else if isIdentStart c then
    let extra := identLength rest
    ⟨wordKind (c :: rest.take extra), extra, none⟩
  else other c rest

end Scan

namespace Token

/-- The first token of a text, and the text after it. -/
def next? : Bytes → Option (Token × Bytes)
  | [] => none
  | c :: rest =>
    let scan := Scan.first c rest
    some (⟨scan.kind, c :: rest.take scan.extra, scan.error⟩, rest.drop scan.extra)

theorem next?_shorter {s rest : Bytes} {t : Token} (h : next? s = some (t, rest)) :
    rest.length < s.length := by
  cases s with
  | nil => simp [next?] at h
  | cons c r =>
    simp only [next?, Option.some.injEq, Prod.mk.injEq] at h
    obtain ⟨_, rfl⟩ := h
    simp only [List.length_drop, List.length_cons]
    omega

/-- The tokens of a text, without the one at its end. -/
def all (s : Bytes) : List Token :=
  match _h : next? s with
  | none => []
  | some (t, rest) => t :: all rest
termination_by s.length
decreasing_by exact next?_shorter _h

/-- A source that is too long to be read, as one token. -/
def tooLong (s : Bytes) : Token := ⟨.error, s, some .sourceTooLong⟩

/-- The tokens of a text from an offset on, with the offset of the first of them. A text of more
than `maxSize` bytes is one malformed token, wherever reading starts. -/
def fromOffset (s : Bytes) (offset maxSize : Nat) : Nat × List Token :=
  if maxSize < s.length then (0, [tooLong s])
  else (min offset s.length, all (s.drop offset))

/-- Tokens with the offsets at which they start. -/
def located (start : Nat) : List Token → List (Nat × Token)
  | [] => []
  | t :: rest => (start, t) :: located (start + t.text.length) rest

end Token

end AvroIdl
