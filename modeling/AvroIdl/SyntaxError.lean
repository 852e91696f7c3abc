import AvroIdl.Token

/-!
# Syntax errors

The causes that an error node of a tree can carry. The code and the wording are functions of the
cause.
-/

namespace AvroIdl

/-- What the grammar asks for at a place where something else stands. -/
inductive Expected where
  | mark (kind : TokenKind)
  | identifier
  | type
  | declaration
  | jsonValue
  | stringLiteral
  | integerLiteral
  | importKind
  | message
  | enumSymbol
  deriving DecidableEq, Repr

namespace Expected

def code : Expected → Nat
  | mark _ => 2000
  | identifier => 2001
  | type => 2002
  | declaration => 2003
  | jsonValue => 2004
  | stringLiteral => 2006
  | integerLiteral => 2007
  | importKind => 2008
  | message => 2009
  | enumSymbol => 2010

def phrase : Expected → Bytes
  | mark kind => Bytes.join ["'", kind.symbol, "'"]
  | identifier => "identifier"
  | type => "type"
  | declaration => "declaration"
  | jsonValue => "JSON value"
  | stringLiteral => "string literal"
  | integerLiteral => "integer literal"
  | importKind => "import kind 'idl', 'protocol' or 'schema'"
  | message => "declaration or message"
  | enumSymbol => "enum symbol"

end Expected

/-- Why a piece of text is no part of a well-formed document. -/
inductive SyntaxError where
  /-- The text is no token. -/
  | lexical (cause : LexError) (text : Bytes)
  /-- The whole source is larger than it may be. -/
  | tooLong (size max : Nat)
  /-- The grammar asks for something else than the token that follows. -/
  | expected (what : Expected) (got : Token)
  /-- The token belongs to nothing. -/
  | unexpected (got : Token)
  /-- Annotations stand before something that cannot have any. -/
  | danglingAnnotations (got : Token)
  deriving DecidableEq, Repr

namespace SyntaxError

/-- A token as messages show it. -/
def describe (t : Token) : Bytes :=
  if t.kind = .eof then "end of file"
  else Bytes.join ["(", t.kind.name, " ", t.text.quoted, ")"]

def code : SyntaxError → Nat
  | lexical cause _ => cause.code
  | tooLong _ _ => LexError.sourceTooLong.code
  | expected what _ => what.code
  | unexpected _ => 2005
  | danglingAnnotations _ => 2011

def message : SyntaxError → Bytes
  | lexical cause text => cause.message text
  | tooLong size max => tooLongMessage size max
  | expected what got => Bytes.join ["Expected ", what.phrase, ", got ", describe got]
  | unexpected got => Bytes.join ["Unexpected ", describe got]
  | danglingAnnotations got =>
    Bytes.join ["Annotation is not followed by a declaration, got ", describe got]

end SyntaxError

end AvroIdl
