import AvroIdl.Parser.Goal

/-!
# The state of the parser

Open nodes are frames on a stack. Trivia and malformed tokens wait until the next token is taken or
the next node is opened, and then become children of the innermost frame. So trivia before a node
belongs to its parent.
-/

namespace AvroIdl

/-- A token that the grammar sees, with the trivia and malformed tokens before it. -/
structure Lexeme where
  leading : List Token
  token : Token
  deriving DecidableEq, Repr

namespace Lexeme

/-- Tokens with what stands before each of them, where `leading` has been read already in reverse.
The last one is the end of the text. -/
def group (leading : List Token) : List Token → List Lexeme
  | [] => [⟨leading.reverse, .eof⟩]
  | t :: rest =>
    if t.kind.isTrivia || t.kind = .error then group (t :: leading) rest
    else ⟨leading.reverse, t⟩ :: group [] rest

end Lexeme

/-- A node whose end has not been read. The newest child comes first. -/
structure Frame where
  kind : NodeKind
  name : Option Nat := none
  error : Option SyntaxError := none
  children : List Element := []
  deriving Repr

/-- The state of the parser between two steps. -/
structure Machine where
  arena : Arena
  generation : UInt64
  /-- The open nodes, from the inside out. -/
  frames : List Frame := []
  /-- What has been read since the last token, in order. -/
  pending : List Element := []
  /-- What remains to be done. -/
  goals : List Goal := []
  /-- Cleared by an error until a place is reached where it is dealt with. -/
  ok : Bool := true
  /-- The number of tokens taken. -/
  taken : Nat := 0
  /-- The number of bodies in braces around the current place. -/
  blocks : Nat := 0
  deriving Repr

namespace Machine

/-- Changes the innermost frame. -/
def onTop (m : Machine) (f : Frame → Frame) : Machine :=
  match m.frames with
  | [] => m
  | top :: below => { m with frames := f top :: below }

/-- Makes one token that the grammar does not see part of what is pending. -/
def hold (m : Machine) (t : Token) : Machine :=
  let leaf := Element.leaf t
  match t.error with
  | none => { m with arena := m.arena.addLeaf, pending := m.pending ++ [leaf] }
  | some cause =>
    let label := m.arena.nextLabel m.generation .error none (some (.lexical cause t.text)) [leaf]
    { m with arena := m.arena.addLeaf.addNode, pending := m.pending ++ [.node label [leaf]] }

/-- Reads what stands before the next token. -/
def receive (m : Machine) (l : Lexeme) : Machine := l.leading.foldl hold m

/-- Makes what is pending part of the innermost node. -/
def flush (m : Machine) : Machine :=
  { m.onTop (fun f => { f with children := m.pending.reverse ++ f.children }) with pending := [] }

/-- Begins a node. -/
def begin (m : Machine) (kind : NodeKind) (error : Option SyntaxError := none) : Machine :=
  let m := m.flush
  { m with frames := { kind, error } :: m.frames }

/-- Says what the innermost node is. -/
def become (m : Machine) (kind : NodeKind) : Machine := m.onTop fun f => { f with kind }

/-- Makes the innermost node an error node. -/
def becomeError (m : Machine) (error : Option SyntaxError) : Machine :=
  m.onTop fun f => { f with kind := .error, error }

/-- Ends the innermost node, which becomes a child of the next one. -/
def close (m : Machine) : Machine :=
  match m.frames with
  | f :: parent :: below =>
    let children := f.children.reverse
    let label := m.arena.nextLabel m.generation f.kind f.name f.error children
    { m with
      arena := m.arena.addNode
      frames := { parent with children := .node label children :: parent.children } :: below }
  | _ => m

/-- Begins a node around the newest child of the innermost node. -/
def wrapLast (m : Machine) (kind : NodeKind) : Machine :=
  match m.frames with
  | top :: below =>
    match top.children with
    | last :: others =>
      { m with frames := { kind, children := [last] } :: { top with children := others } :: below }
    | [] => m
  | [] => m

/-- Takes a token into the innermost node. -/
def take (m : Machine) (t : Token) : Machine :=
  let m := m.flush.onTop fun f => { f with children := .leaf t :: f.children }
  { m with arena := m.arena.addLeaf, taken := m.taken + 1 }

/-- Takes a token as the name of the innermost node. -/
def takeName (m : Machine) (t : Token) : Machine :=
  (m.flush.onTop fun f => { f with name := some f.children.length }).take t

/-- Puts goals before those that remain. -/
def push (m : Machine) (goals : List Goal) : Machine := { m with goals := goals ++ m.goals }

/-- Gives up what is being read, up to the next place where errors are dealt with. -/
def fail (m : Machine) : Machine := { m with ok := false }

/-- Puts an empty error node before the next token. -/
def report (m : Machine) (e : SyntaxError) : Machine := (m.begin .error (some e)).close

/-- Puts the next token into an error node of its own. -/
def reportTaken (m : Machine) (e : SyntaxError) (t : Token) : Machine :=
  ((m.begin .error (some e)).take t).close

/-- What the outermost node holds so far. -/
def contents (m : Machine) : List Element := (m.frames.getLast?.map (·.children.reverse)).getD []

/-- Whether the newest child of the innermost node is a comma. -/
def afterComma (m : Machine) : Bool :=
  match m.frames with
  | { children := .leaf t :: _, .. } :: _ => t.kind = .comma
  | _ => false

end Machine

end AvroIdl
