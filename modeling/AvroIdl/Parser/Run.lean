import AvroIdl.Parser.Step

/-!
# Runs of the parser

The parser is fed one lexeme after the other. With a lexeme in sight it works on its goals until it
takes the token or has nothing left to do. Each goal has a weight, and a step that takes no token
makes the goals lighter, so this comes to an end.
-/

namespace AvroIdl

/-- A bound on the number of steps that a goal causes before a token is taken, when `taken` tokens
have been taken. -/
def Goal.weight (taken : Nat) : Goal → Nat
  | .items _ => 32
  | .moreItems _ before => if before < taken then 33 else 1
  | .item _ => 30
  | .declaration _ => 27
  | .params => 13
  | .unionItems => 10
  | .variableList | .members | .elements => 7
  | .type | .variableDecl => 5
  | .recover _ | .block _ | .enumBody => 3
  | .group _ _ => 2
  | _ => 1

namespace Machine

/-- A bound on the number of steps before a token is taken or nothing is left to do. -/
def weight (m : Machine) : Nat := m.goals.foldr (fun g n => g.weight m.taken + n) 0

/-- Works with token `t` in sight for at most the given number of steps, until the token is taken
or nothing is left to do. -/
def settle (t : Token) : Nat → Machine → Machine
  | 0, m => m
  | n + 1, m =>
    if m.goals.isEmpty then m
    else
      let next := m.step t
      if m.taken < next.taken then next else settle t n next

/-- Reads a lexeme, and works until its token is taken or nothing is left to do. -/
def feed (m : Machine) (l : Lexeme) : Machine :=
  let m := m.receive l
  m.settle l.token m.weight

/-- Reads lexemes until a token is not taken. -/
def run (m : Machine) : List Lexeme → Machine
  | [] => m
  | l :: rest =>
    let next := m.feed l
    if m.taken < next.taken then next.run rest else next

/-- The parser before the first lexeme, with one open node around all that it reads. -/
def start (arena : Arena) (generation : UInt64) (blocks : Nat) (goals : List Goal) : Machine :=
  { arena, generation, blocks, goals, frames := [{ kind := .document }] }

end Machine

/-- The lexemes of a text. -/
def lexemes (text : Bytes) : List Lexeme := Lexeme.group [] (Token.all text)

/-- What governs the reading of a text. -/
structure ParseOptions where
  /-- The stamp of the nodes that are made. -/
  generation : UInt64 := 1
  /-- The size of the largest text that is read. -/
  maxSize : Nat := maxOffset
  deriving DecidableEq, Repr

namespace Tree

/-- The tree of a text that is too large to be read: one error node that holds all of it. Its width
is at most the largest offset. -/
def tooLong (arena : Arena) (opts : ParseOptions) (text : Bytes) : Tree :=
  let width := min text.length maxOffset
  let label (id : NodeId) (kind : NodeKind) (error : Option SyntaxError) : Label :=
    { id, kind, generation := opts.generation, width, hasError := true, name := none, error }
  let problem := SyntaxError.tooLong text.length opts.maxSize
  { arena := { nodes := arena.nodes + 2, leaves := arena.leaves + 1 }
    label := label (arena.nodes + 2) .document none
    children := [.node (label (arena.nodes + 1) .error (some problem)) [.leaf (Token.tooLong text)]]
    text
    generation := opts.generation }

/-- The tree of a text, with its nodes made in an arena. Reading never fails: what is malformed is
kept in error nodes. -/
def parseIn (arena : Arena) (opts : ParseOptions) (text : Bytes) : Tree :=
  if opts.maxSize < text.length || maxOffset < text.length then tooLong arena opts text
  else
    let goals := [.items .document, .leftovers]
    let m := ((Machine.start arena opts.generation 0 goals).run (lexemes text)).flush
    { arena := m.arena.addNode
      label := m.arena.nextLabel opts.generation .document none none m.contents
      children := m.contents
      text
      generation := opts.generation }

/-- The tree of a text. -/
def parse (text : Bytes) (opts : ParseOptions := {}) : Tree := parseIn {} opts text

end Tree

end AvroIdl
