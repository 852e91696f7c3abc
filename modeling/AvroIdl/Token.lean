import AvroIdl.Text.Quoted
import AvroIdl.Span

/-!
# Tokens

The words of the language: token kinds, keywords, and the causes for which a piece of text is no
token.
-/

namespace AvroIdl

/-- The class of a token. -/
inductive TokenKind where
  | eof
  | space
  | newline
  | lineComment
  | blockComment
  | docComment
  | atSign
  | colon
  | comma
  | semi
  | dot
  | eq
  | question
  | lt
  | gt
  | openCurl
  | closeCurl
  | openParen
  | closeParen
  | openSquare
  | closeSquare
  | intLit
  | floatLit
  | stringLit
  | boolLit
  | keyword
  | ident
  | error
  deriving DecidableEq, Repr

namespace TokenKind

/-- All kinds, in the order of their numbers. -/
def all : List TokenKind :=
  [eof, space, newline, lineComment, blockComment, docComment, atSign, colon, comma, semi, dot, eq,
    question, lt, gt, openCurl, closeCurl, openParen, closeParen, openSquare, closeSquare, intLit,
    floatLit, stringLit, boolLit, keyword, ident, error]

def name : TokenKind → Bytes
  | eof => "EOF"
  | space => "SPACE"
  | newline => "NEWLINE"
  | lineComment => "COMMENT"
  | blockComment => "BLOCK_COMMENT"
  | docComment => "DOC_COMMENT"
  | atSign => "AT"
  | colon => "COLON"
  | comma => "COMMA"
  | semi => "SEMI"
  | dot => "DOT"
  | eq => "EQ"
  | question => "QUESTION"
  | lt => "LT"
  | gt => "GT"
  | openCurl => "OPEN_CURL"
  | closeCurl => "CLOSE_CURL"
  | openParen => "OPEN_PAREN"
  | closeParen => "CLOSE_PAREN"
  | openSquare => "OPEN_SQUARE"
  | closeSquare => "CLOSE_SQUARE"
  | intLit => "INT_LIT"
  | floatLit => "FLOAT_LIT"
  | stringLit => "STRING_LIT"
  | boolLit => "BOOL_LIT"
  | keyword => "KEYWORD"
  | ident => "IDENT"
  | error => "ERROR"

/-- The character of a punctuation token. -/
def symbol : TokenKind → Bytes
  | atSign => "@"
  | colon => ":"
  | comma => ","
  | semi => ";"
  | dot => "."
  | eq => "="
  | question => "?"
  | lt => "<"
  | gt => ">"
  | openCurl => "\x7b"
  | closeCurl => "\x7d"
  | openParen => "("
  | closeParen => ")"
  | openSquare => "["
  | closeSquare => "]"
  | _ => []

/-- Whether tokens of this kind carry no grammatical meaning. -/
def isTrivia : TokenKind → Bool
  | space | newline | lineComment | blockComment | docComment => true
  | _ => false

end TokenKind

/-- The reserved words. Names of primitive types are ordinary identifiers. -/
inductive Keyword where
  | protocol
  | nameSpace
  | importing
  | idl
  | schema
  | record
  | error
  | enum
  | fixed
  | array
  | map
  | union
  | void
  | oneway
  | throws
  | decimal
  | null
  deriving DecidableEq, Repr

namespace Keyword

def all : List Keyword :=
  [protocol, nameSpace, importing, idl, schema, record, error, enum, fixed, array, map, union, void,
    oneway, throws, decimal, null]

def text : Keyword → Bytes
  | protocol => "protocol"
  | nameSpace => "namespace"
  | importing => "import"
  | idl => "idl"
  | schema => "schema"
  | record => "record"
  | error => "error"
  | enum => "enum"
  | fixed => "fixed"
  | array => "array"
  | map => "map"
  | union => "union"
  | void => "void"
  | oneway => "oneway"
  | throws => "throws"
  | decimal => "decimal"
  | null => "null"

/-- The keyword that a word spells. -/
def ofText? (word : Bytes) : Option Keyword := all.find? fun k => k.text = word

end Keyword

/-- Why a piece of text is no token. -/
inductive LexError where
  | invalidUtf8
  | unexpectedCharacter
  | controlCharacter
  | sourceTooLong
  | unterminatedString
  | unterminatedComment
  | invalidNumber
  | invalidIdentifier
  deriving DecidableEq, Repr

/-- The message about a source that is larger than it may be. -/
def tooLongMessage (size max : Nat) : Bytes :=
  Bytes.join ["Source size (", Bytes.ofNat size, " bytes) exceeds maximum (", Bytes.ofNat max,
    " bytes)"]

namespace LexError

def code : LexError → Nat
  | invalidUtf8 => 1001
  | unexpectedCharacter => 1002
  | controlCharacter => 1003
  | sourceTooLong => 1004
  | unterminatedString => 1005
  | unterminatedComment => 1006
  | invalidNumber => 1007
  | invalidIdentifier => 1008

/-- What is said about `text`, the piece that is no token. -/
def message (text : Bytes) : LexError → Bytes
  | invalidUtf8 => "Source contains invalid UTF-8"
  | unexpectedCharacter => Bytes.join ["Unexpected character ", text.quoted]
  | controlCharacter =>
    let digits := (hexDigits 4 (text.headD 0).toNat).map fun d => if isLetter d then d - 0x20 else d
    Bytes.join ["Forbidden control character U+", digits]
  | sourceTooLong => tooLongMessage text.length maxOffset
  | unterminatedString => "Unterminated string literal"
  | unterminatedComment => "Unterminated block comment"
  | invalidNumber => Bytes.join ["Invalid number literal ", text.quoted]
  | invalidIdentifier => Bytes.join ["Invalid quoted identifier ", text.quoted]

end LexError

/-- A piece of text with its class. A token of kind `error` carries the cause. -/
structure Token where
  kind : TokenKind
  text : Bytes
  error : Option LexError := none
  deriving DecidableEq, Repr

namespace Token

/-- The token after the last one. -/
def eof : Token := { kind := .eof, text := [] }

/-- Whether a token is the given keyword. -/
def is (t : Token) (k : Keyword) : Bool := t.kind = .keyword && t.text = k.text

/-- Whether a token can serve as a name. Keywords can. -/
def isName (t : Token) : Bool := t.kind = .ident || t.kind = .keyword

end Token

/-- An identifier without its quoting backquotes. -/
def identText (text : Bytes) : Bytes :=
  if 2 ≤ text.length && text.head? = some 0x60 && text.getLast? = some 0x60 then
    text.slice 1 (text.length - 1)
  else text

end AvroIdl
