import AvroIdl.Tree

/-!
# Goals of the parser

The parser keeps a stack of goals: what it still has to read, in order. A goal is worked on with
the next token in sight and either takes that token, or gives way to other goals.
-/

namespace AvroIdl

/-- Where a sequence of statements stands. -/
inductive Body where
  | document
  | protocol
  | record
  deriving DecidableEq, Repr

/-- What is skipped after an error. -/
inductive Skipped where
  /-- The rest of a statement. -/
  | statement
  /-- The rest of an item in a list separated by commas. -/
  | listItem
  deriving DecidableEq, Repr

/-- What the parser still has to do. -/
inductive Goal where
  /-- Statements up to the end of the body. -/
  | items (body : Body)
  /-- More statements, if tokens have been taken since `taken` of them were. -/
  | moreItems (body : Body) (taken : Nat)
  /-- One statement. -/
  | item (body : Body)
  /-- Tokens that belong to nothing, up to the end of the text. -/
  | leftovers
  /-- The end of the open node. -/
  | close
  /-- The end of a body in braces. -/
  | leaveBlock
  /-- The place where an error is dealt with, by skipping what `skipped` says. -/
  | recover (skipped : Option Skipped)
  /-- More of the tokens that are skipped; `any` says whether one has been skipped yet. -/
  | skip (skipped : Skipped) (any : Bool)
  /-- The rest of a bracketed group that is skipped, with the brackets that close it. -/
  | group (skipped : Skipped) (closers : List TokenKind)
  /-- The name of the open node. -/
  | name
  /-- A punctuation character. -/
  | mark (kind : TokenKind)
  /-- An integer literal. -/
  | integer
  /-- Any number of annotations. -/
  | annotations
  /-- What follows the annotations of a statement. -/
  | declaration (body : Body)
  /-- Statements in braces. -/
  | block (body : Body)
  | importKind
  | importPath
  | enumBody
  | enumSymbols
  | enumSeparator
  | enumDefault
  | type
  /-- What follows the annotations of a type. -/
  | typeBody
  /-- A question mark after a type. -/
  | nullable
  | unionItems
  | unionSeparator
  | variableList
  | moreVariables
  | variableDecl
  /-- The default value of a field or parameter. -/
  | initializer
  | params
  | moreParams
  /-- What follows the parameters of a message. -/
  | messageEnd
  | exceptions
  | moreExceptions
  | json
  | members
  | moreMembers
  | elements
  | moreElements
  deriving DecidableEq, Repr

end AvroIdl
