import AvroIdl.Parser.Machine
import AvroIdl.Token.Lexer

/-!
# Steps of the parser

The grammar, as one step of the parser for each goal. A step sees the next token and no other, and
takes at most that one. The language is:

    document   = item* EOF
    item       = importStmt | "namespace" name ";" | "schema" type ";"
               | annotation* ( protocol | record | enum | fixed )
    protocol   = "protocol" name "{" ( importStmt | annotation* ( record | enum | fixed | message ) )* "}"
    record     = ( "record" | "error" ) name "{" field* "}"
    field      = type variable ( "," variable )* ";"
    variable   = annotation* name ( "=" json )?
    enum       = "enum" name "{" ( name ( "," name )* ","? )? "}" ( "=" name ";" )?
    fixed      = "fixed" name "(" INT ")" ";"
    message    = ( type | "void" ) name "(" ( type variable ( "," type variable )* ","? )? ")"
                 ( "oneway" | "throws" name ( "," name )* )? ";"
    importStmt = "import" ( "idl" | "protocol" | "schema" ) STRING ";"
    type       = annotation* ( name | "null" | "array" "<" type ">" | "map" "<" type ">"
               | "union" "{" ( type ( "," type )* ","? )? "}" | "decimal" "(" INT "," INT ")" ) "?"?
    annotation = "@" name "(" json ")"

After an error the rest of the statement or of the list item is skipped into an error node.
-/

namespace AvroIdl

namespace Token

/-- Whether a token begins a declaration that can stand in a document. -/
def beginsDeclaration (t : Token) : Bool :=
  t.is .protocol || t.is .nameSpace || t.is .schema || t.is .importing || t.is .record ||
    t.is .error || t.is .enum || t.is .fixed

/-- Whether a token begins the declaration of a type that can stand in a protocol. -/
def beginsNamedType (t : Token) : Bool :=
  t.is .record || t.is .error || t.is .enum || t.is .fixed

/-- Whether a token begins a type. -/
def beginsType (t : Token) : Bool :=
  t.kind = .atSign || t.kind = .ident || t.is .array || t.is .map || t.is .union ||
    t.is .decimal || t.is .null

/-- The bracket that closes the one that a token opens. -/
def closer? (t : Token) : Option TokenKind :=
  match t.kind with
  | .openCurl => some .closeCurl
  | .openParen => some .closeParen
  | .openSquare => some .closeSquare
  | .lt => some .gt
  | _ => none

/-- Whether a token closes a bracket. -/
def isCloser (t : Token) : Bool :=
  t.kind = .closeCurl || t.kind = .closeParen || t.kind = .closeSquare || t.kind = .gt

/-- Whether a token ends an item of a list separated by commas. -/
def endsListItem (t : Token) : Bool :=
  t.kind = .comma || t.kind = .closeCurl || t.kind = .closeSquare || t.kind = .closeParen ||
    t.kind = .semi || t.kind = .eof

/-- Whether a token is a JSON value by itself. -/
def isJsonLiteral (t : Token) : Bool :=
  t.kind = .stringLit || t.kind = .intLit || t.kind = .floatLit || t.kind = .boolLit || t.is .null

end Token

namespace Machine

/-- Reports what should stand in the place of the next token. -/
def reportExpected (m : Machine) (what : Expected) (t : Token) : Machine :=
  m.report (.expected what t)

/-- Reports what should stand in the place of the next token, and gives up. -/
def failExpected (m : Machine) (what : Expected) (t : Token) : Machine :=
  (m.reportExpected what t).fail

/-- Whether what is skipped of a statement ends before the next token. A closing brace ends it
inside a body only, and a new declaration only after something has been skipped. -/
def atStatementEnd (m : Machine) (any : Bool) (t : Token) : Bool :=
  t.kind = .eof || (t.kind = .closeCurl && 0 < m.blocks) ||
    ((t.kind = .atSign || t.beginsDeclaration) && any)

/-- Skips the rest of a statement into an error node. -/
def skipStatement (m : Machine) (error : Option SyntaxError) : Machine :=
  (m.begin .error error).push [.skip .statement false, .close]

/-- Deals with an error. Nothing is recorded when there is nothing to skip. -/
def recover (m : Machine) (t : Token) : Option Skipped → Machine
  | none => m
  | some .statement => if m.atStatementEnd false t then m else m.skipStatement none
  | some .listItem =>
    if t.endsListItem then m else (m.begin .error).push [.skip .listItem false, .close]

/-- Skips one token, or begins to skip a bracketed group. -/
def skipOne (m : Machine) (skipped : Skipped) (t : Token) : Machine :=
  match t.closer? with
  | some c => (m.take t).push [.group skipped [c]]
  | none => (m.take t).push [.skip skipped true]

/-- Goes on with what is being skipped. A semicolon ends a statement. -/
def skip (m : Machine) (skipped : Skipped) (any : Bool) (t : Token) : Machine :=
  match skipped with
  | .statement =>
    if m.atStatementEnd any t then m
    else if t.kind = .semi then m.take t
    else m.skipOne .statement t
  | .listItem => if t.endsListItem then m else m.skipOne .listItem t

/-- Goes on inside a bracketed group. A brace that closes none of its brackets ends the group. A
group in braces that is closed ends a statement. -/
def group (m : Machine) (skipped : Skipped) (closers : List TokenKind) (t : Token) : Machine :=
  if t.kind = .eof then m.push [.skip skipped true]
  else if let some c := t.closer? then (m.take t).push [.group skipped (c :: closers)]
  else if t.isCloser && closers.head? = some t.kind then
    match closers.tail with
    | [] =>
      if skipped = .statement && t.kind = .closeCurl then m.take t
      else (m.take t).push [.skip skipped true]
    | others => (m.take t).push [.group skipped others]
  else if t.kind = .closeCurl then m.push [.skip skipped true]
  else (m.take t).push [.group skipped closers]

/-- A punctuation character. -/
def mark (m : Machine) (kind : TokenKind) (t : Token) : Machine :=
  if t.kind = kind then m.take t else m.failExpected (.mark kind) t

/-- A punctuation character that may be missing after an item of a list, with more of the list. -/
def separator (m : Machine) (t : Token) (more : Goal) : Machine :=
  if t.kind = .comma then (m.take t).push [more] else m

/-- An import statement. -/
def importStmt (m : Machine) (t : Token) : Machine :=
  ((m.begin .importStmt).take t).push
    [.importKind, .importPath, .mark .semi, .recover (some .statement), .close]

/-- A statement that can have annotations. -/
def annotated (m : Machine) (body : Body) : Machine :=
  (m.begin .invalid).push [.annotations, .declaration body, .close]

/-- One statement. -/
def item (m : Machine) (body : Body) (t : Token) : Machine :=
  match body with
  | .document =>
    if t.is .importing then m.importStmt t
    else if t.is .nameSpace then
      ((m.begin .namespaceDecl).take t).push
        [.name, .mark .semi, .recover (some .statement), .close]
    else if t.is .schema then
      ((m.begin .schemaDecl).take t).push [.type, .mark .semi, .recover (some .statement), .close]
    else if t.kind = .atSign || t.beginsDeclaration then m.annotated .document
    else m.skipStatement (some (.expected .declaration t))
  | .protocol =>
    if t.is .importing then m.importStmt t
    else if t.beginsType || t.is .void || t.beginsNamedType then m.annotated .protocol
    else m.skipStatement (some (.expected .message t))
  | .record =>
    (m.begin .fieldDecl).push [.type, .variableList, .mark .semi, .recover (some .statement), .close]

/-- The declaration of a named type, at its keyword. -/
def namedType (m : Machine) (kind : NodeKind) (t : Token) (rest : List Goal) : Machine :=
  ((m.become kind).take t).push (.name :: .recover none :: rest)

/-- What remains of a message after its result type. -/
def messageRest : List Goal :=
  [.name, .mark .openParen, .params, .mark .closeParen, .messageEnd, .mark .semi,
    .recover (some .statement)]

/-- What follows the annotations of a statement. -/
def declaration (m : Machine) (body : Body) (t : Token) : Machine :=
  if t.is .protocol && body = .document then m.namedType .protocolDecl t [.block .protocol]
  else if t.is .record then m.namedType .recordDecl t [.block .record]
  else if t.is .error then m.namedType .errorDecl t [.block .record]
  else if t.is .enum then m.namedType .enumDecl t [.enumBody]
  else if t.is .fixed then
    m.namedType .fixedDecl t
      [.mark .openParen, .integer, .mark .closeParen, .mark .semi, .recover (some .statement)]
  else if body = .protocol && t.is .void then
    ((((m.become .messageDecl).begin .voidType).take t).close).push messageRest
  else if body = .protocol && t.beginsType then
    (m.become .messageDecl).push (.type :: messageRest)
  else ((m.becomeError none).report (.danglingAnnotations t)).recover t (some .statement)

/-- The start of the braces around a body. Without it the rest of the statement is skipped. -/
def openBrace (m : Machine) (t : Token) (rest : List Goal) : Machine :=
  if t.kind = .openCurl then (m.take t).push rest
  else (m.reportExpected (.mark .openCurl) t).recover t (some .statement)

/-- Statements in braces. -/
def block (m : Machine) (body : Body) (t : Token) : Machine :=
  let inside := if t.kind = .openCurl then { m with blocks := m.blocks + 1 } else m
  inside.openBrace t [.items body, .leaveBlock, .mark .closeCurl, .recover none]

/-- The symbols of an enum. A word that begins a declaration is a symbol only after a comma. -/
def enumSymbols (m : Machine) (t : Token) : Machine :=
  if t.kind = .closeCurl || t.kind = .eof || (t.beginsDeclaration && !m.afterComma) then m
  else if t.isName then
    (((m.begin .enumSymbol).takeName t).close).push [.enumSeparator, .enumSymbols]
  else (m.reportTaken (.expected .enumSymbol t) t).push [.enumSymbols]

/-- What follows the annotations of a type. -/
def typeBody (m : Machine) (t : Token) : Machine :=
  if t.is .array then ((m.become .arrayType).take t).push [.mark .lt, .type, .mark .gt]
  else if t.is .map then ((m.become .mapType).take t).push [.mark .lt, .type, .mark .gt]
  else if t.is .union then
    ((m.become .unionType).take t).push [.mark .openCurl, .unionItems, .mark .closeCurl]
  else if t.is .decimal then
    ((m.become .decimalType).take t).push
      [.mark .openParen, .integer, .mark .comma, .integer, .mark .closeParen]
  else if t.kind = .ident || t.is .null then (m.become .typeRef).takeName t
  else (m.becomeError (some (.expected .type t))).fail

/-- A JSON value. -/
def json (m : Machine) (t : Token) : Machine :=
  if t.kind = .openCurl then
    ((m.begin .jsonObject).take t).push [.members, .mark .closeCurl, .close]
  else if t.kind = .openSquare then
    ((m.begin .jsonArray).take t).push [.elements, .mark .closeSquare, .close]
  else if t.isJsonLiteral then ((m.begin .jsonLiteral).take t).close
  else m.failExpected .jsonValue t

/-- The members of a JSON object. -/
def members (m : Machine) (t : Token) : Machine :=
  if t.kind = .closeCurl || t.kind = .eof then m
  else
    let m := m.begin .jsonMember
    let rest := [.close, .recover (some .listItem), .moreMembers]
    if t.kind = .stringLit then (m.takeName t).push (.mark .colon :: .json :: rest)
    else (m.failExpected .stringLiteral t).push rest

/-- Works on one goal with the next token in sight. -/
def work (m : Machine) (t : Token) : Goal → Machine
  | .items body =>
    if t.kind = .eof || (t.kind = .closeCurl && body ≠ .document) then m
    else m.push [.item body, .moreItems body m.taken]
  | .moreItems body taken => if taken < m.taken then m.push [.items body] else m
  | .item body => m.item body t
  | .leftovers =>
    if t.kind = .eof then m else (m.reportTaken (.unexpected t) t).push [.leftovers]
  | .close => m.close
  | .leaveBlock => { m with blocks := m.blocks - 1 }
  | .recover _ => m
  | .skip skipped any => m.skip skipped any t
  | .group skipped closers => m.group skipped closers t
  | .name => if t.isName then m.takeName t else m.failExpected .identifier t
  | .mark kind => m.mark kind t
  | .integer => if t.kind = .intLit then m.take t else m.failExpected .integerLiteral t
  | .annotations =>
    if t.kind = .atSign then
      ((m.begin .annotationDecl).take t).push
        [.name, .mark .openParen, .json, .mark .closeParen, .recover none, .close, .annotations]
    else m
  | .declaration body => m.declaration body t
  | .block body => m.block body t
  | .importKind =>
    if t.is .idl || t.is .protocol || t.is .schema then m.take t
    else
      let m := m.reportExpected .importKind t
      if t.kind = .stringLit then m else m.fail
  | .importPath => if t.kind = .stringLit then m.takeName t else m.failExpected .stringLiteral t
  | .enumBody => m.openBrace t [.enumSymbols, .mark .closeCurl, .enumDefault, .recover none]
  | .enumSymbols => m.enumSymbols t
  | .enumSeparator =>
    if t.kind = .comma then m.take t
    else if t.kind = .closeCurl then m
    else m.reportExpected (.mark .comma) t
  | .enumDefault =>
    if t.kind = .eq then
      ((m.begin .enumDefault).take t).push [.name, .mark .semi, .recover (some .statement), .close]
    else m
  | .type =>
    if t.beginsType then (m.begin .invalid).push [.annotations, .typeBody, .close, .nullable]
    else m.failExpected .type t
  | .typeBody => m.typeBody t
  | .nullable =>
    if t.kind = .question then ((m.wrapLast .nullableType).take t).close else m
  | .unionItems =>
    if t.kind = .closeCurl || t.kind = .eof then m
    else m.push [.type, .recover (some .listItem), .unionSeparator]
  | .unionSeparator =>
    if t.kind = .comma then (m.take t).push [.unionItems]
    else if t.kind = .closeCurl then m
    else m.reportExpected (.mark .comma) t
  | .variableList => m.push [.variableDecl, .moreVariables]
  | .moreVariables => m.separator t .variableList
  | .variableDecl => (m.begin .variableDecl).push [.annotations, .name, .initializer, .close]
  | .initializer => if t.kind = .eq then (m.take t).push [.json] else m
  | .params =>
    if t.kind = .closeParen || t.kind = .eof then m
    else (m.begin .formalParam).push [.type, .variableDecl, .close, .moreParams]
  | .moreParams => m.separator t .params
  | .messageEnd =>
    if t.is .oneway then m.take t
    else if t.is .throws then ((m.begin .throwsClause).take t).push [.exceptions, .close]
    else m
  | .exceptions =>
    if t.kind = .ident then (((m.begin .typeRef).takeName t).close).push [.moreExceptions]
    else m.failExpected .identifier t
  | .moreExceptions => m.separator t .exceptions
  | .json => m.json t
  | .members => m.members t
  | .moreMembers => m.separator t .members
  | .elements =>
    if t.kind = .closeSquare || t.kind = .eof then m
    else m.push [.json, .recover (some .listItem), .moreElements]
  | .moreElements => m.separator t .elements

/-- Passes over one goal after an error. Nodes and bodies still end, and a place where errors are
dealt with puts things in order again. -/
def unwind (m : Machine) (t : Token) : Goal → Machine
  | .close => m.close
  | .leaveBlock => { m with blocks := m.blocks - 1 }
  | .recover skipped => { m with ok := true }.recover t skipped
  | _ => m

/-- One step with the next token in sight. -/
def step (m : Machine) (t : Token) : Machine :=
  match m.goals with
  | [] => m
  | g :: rest =>
    let m := { m with goals := rest }
    if m.ok then m.work t g else m.unwind t g

end Machine

end AvroIdl
