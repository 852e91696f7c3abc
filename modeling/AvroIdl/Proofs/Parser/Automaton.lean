import AvroIdl.Parser.Run
import Mathlib.Tactic.SplitIfs

/-!
# The automaton inside the parser

What the parser does next depends on its goals, on whether it is getting over an error, on two
counters and on the token in sight. What it has built has no say in it, with one exception: whether
the newest child is a comma. So the parser is a pushdown automaton, `Control.step`, that drives the
construction of a tree, and `Machine.control_step` says that the one is the other without the tree.

Everything about goals alone is proved of the automaton.
-/

namespace AvroIdl

/-- The part of the parser's state that decides what it does next. -/
structure Control where
  goals : List Goal
  ok : Bool
  taken : Nat
  blocks : Nat
  deriving DecidableEq

namespace Control

/-- Puts goals before those that remain. -/
def push (c : Control) (goals : List Goal) : Control := { c with goals := goals ++ c.goals }

/-- Counts a token as taken. -/
def count (c : Control) : Control := { c with taken := c.taken + 1 }

/-- Gives up what is being read. -/
def fail (c : Control) : Control := { c with ok := false }

/-- Whether what is skipped of a statement ends before the next token. -/
def atStatementEnd (c : Control) (any : Bool) (t : Token) : Bool :=
  t.kind = .eof || (t.kind = .closeCurl && 0 < c.blocks) ||
    ((t.kind = .atSign || t.beginsDeclaration) && any)

/-- Deals with an error. -/
def recover (c : Control) (t : Token) : Option Skipped → Control
  | none => c
  | some .statement =>
    if c.atStatementEnd false t then c else c.push [.skip .statement false, .close]
  | some .listItem => if t.endsListItem then c else c.push [.skip .listItem false, .close]

/-- Skips one token, or begins to skip a bracketed group. -/
def skipOne (c : Control) (skipped : Skipped) (t : Token) : Control :=
  match t.closer? with
  | some k => c.count.push [.group skipped [k]]
  | none => c.count.push [.skip skipped true]

/-- Goes on inside a bracketed group. -/
def group (c : Control) (skipped : Skipped) (closers : List TokenKind) (t : Token) : Control :=
  if t.kind = .eof then c.push [.skip skipped true]
  else if let some k := t.closer? then c.count.push [.group skipped (k :: closers)]
  else if t.isCloser && closers.head? = some t.kind then
    match closers.tail with
    | [] =>
      if skipped = .statement && t.kind = .closeCurl then c.count
      else c.count.push [.skip skipped true]
    | others => c.count.push [.group skipped others]
  else if t.kind = .closeCurl then c.push [.skip skipped true]
  else c.count.push [.group skipped closers]

/-- What remains of an import statement after its first word. -/
def importRest : List Goal :=
  [.importKind, .importPath, .mark .semi, .recover (some .statement), .close]

/-- One statement. -/
def item (c : Control) (t : Token) : Body → Control
  | .document =>
    if t.is .importing then c.count.push importRest
    else if t.is .nameSpace then
      c.count.push [.name, .mark .semi, .recover (some .statement), .close]
    else if t.is .schema then
      c.count.push [.type, .mark .semi, .recover (some .statement), .close]
    else if t.kind = .atSign || t.beginsDeclaration then
      c.push [.annotations, .declaration .document, .close]
    else c.push [.skip .statement false, .close]
  | .protocol =>
    if t.is .importing then c.count.push importRest
    else if t.beginsType || t.is .void || t.beginsNamedType then
      c.push [.annotations, .declaration .protocol, .close]
    else c.push [.skip .statement false, .close]
  | .record =>
    c.push [.type, .variableList, .mark .semi, .recover (some .statement), .close]

/-- What follows the annotations of a statement. -/
def declaration (c : Control) (t : Token) (body : Body) : Control :=
  if t.is .protocol && body = .document then
    c.count.push [.name, .recover none, .block .protocol]
  else if t.is .record then c.count.push [.name, .recover none, .block .record]
  else if t.is .error then c.count.push [.name, .recover none, .block .record]
  else if t.is .enum then c.count.push [.name, .recover none, .enumBody]
  else if t.is .fixed then
    c.count.push [.name, .recover none, .mark .openParen, .integer, .mark .closeParen, .mark .semi,
      .recover (some .statement)]
  else if body = .protocol && t.is .void then c.count.push Machine.messageRest
  else if body = .protocol && t.beginsType then c.push (.type :: Machine.messageRest)
  else c.recover t (some .statement)

/-- The start of the braces around a body. -/
def openBrace (c : Control) (t : Token) (rest : List Goal) : Control :=
  if t.kind = .openCurl then c.count.push rest else c.recover t (some .statement)

/-- What follows the annotations of a type. -/
def typeBody (c : Control) (t : Token) : Control :=
  if t.is .array then c.count.push [.mark .lt, .type, .mark .gt]
  else if t.is .map then c.count.push [.mark .lt, .type, .mark .gt]
  else if t.is .union then c.count.push [.mark .openCurl, .unionItems, .mark .closeCurl]
  else if t.is .decimal then
    c.count.push [.mark .openParen, .integer, .mark .comma, .integer, .mark .closeParen]
  else if t.kind = .ident || t.is .null then c.count
  else c.fail

/-- Works on one goal with the next token in sight, where `comma` says whether the newest child is
a comma. -/
def work (c : Control) (comma : Bool) (t : Token) : Goal → Control
  | .items body =>
    if t.kind = .eof || (t.kind = .closeCurl && body ≠ .document) then c
    else c.push [.item body, .moreItems body c.taken]
  | .moreItems body taken => if taken < c.taken then c.push [.items body] else c
  | .item body => c.item t body
  | .leftovers => if t.kind = .eof then c else c.count.push [.leftovers]
  | .close | .recover _ => c
  | .leaveBlock => { c with blocks := c.blocks - 1 }
  | .skip .statement any =>
    if c.atStatementEnd any t then c
    else if t.kind = .semi then c.count
    else c.skipOne .statement t
  | .skip .listItem _ => if t.endsListItem then c else c.skipOne .listItem t
  | .group skipped closers => c.group skipped closers t
  | .name => if t.isName then c.count else c.fail
  | .mark kind => if t.kind = kind then c.count else c.fail
  | .integer => if t.kind = .intLit then c.count else c.fail
  | .annotations =>
    if t.kind = .atSign then
      c.count.push
        [.name, .mark .openParen, .json, .mark .closeParen, .recover none, .close, .annotations]
    else c
  | .declaration body => c.declaration t body
  | .block body =>
    let inside := if t.kind = .openCurl then { c with blocks := c.blocks + 1 } else c
    inside.openBrace t [.items body, .leaveBlock, .mark .closeCurl, .recover none]
  | .importKind =>
    if t.is .idl || t.is .protocol || t.is .schema then c.count
    else if t.kind = .stringLit then c
    else c.fail
  | .importPath => if t.kind = .stringLit then c.count else c.fail
  | .enumBody => c.openBrace t [.enumSymbols, .mark .closeCurl, .enumDefault, .recover none]
  | .enumSymbols =>
    if t.kind = .closeCurl || t.kind = .eof || (t.beginsDeclaration && !comma) then c
    else if t.isName then c.count.push [.enumSeparator, .enumSymbols]
    else c.count.push [.enumSymbols]
  | .enumSeparator => if t.kind = .comma then c.count else c
  | .enumDefault =>
    if t.kind = .eq then
      c.count.push [.name, .mark .semi, .recover (some .statement), .close]
    else c
  | .type =>
    if t.beginsType then c.push [.annotations, .typeBody, .close, .nullable] else c.fail
  | .typeBody => c.typeBody t
  | .nullable => if t.kind = .question then c.count else c
  | .unionItems =>
    if t.kind = .closeCurl || t.kind = .eof then c
    else c.push [.type, .recover (some .listItem), .unionSeparator]
  | .unionSeparator => if t.kind = .comma then c.count.push [.unionItems] else c
  | .variableList => c.push [.variableDecl, .moreVariables]
  | .moreVariables => if t.kind = .comma then c.count.push [.variableList] else c
  | .variableDecl => c.push [.annotations, .name, .initializer, .close]
  | .initializer => if t.kind = .eq then c.count.push [.json] else c
  | .params =>
    if t.kind = .closeParen || t.kind = .eof then c
    else c.push [.type, .variableDecl, .close, .moreParams]
  | .moreParams => if t.kind = .comma then c.count.push [.params] else c
  | .messageEnd =>
    if t.is .oneway then c.count
    else if t.is .throws then c.count.push [.exceptions, .close]
    else c
  | .exceptions => if t.kind = .ident then c.count.push [.moreExceptions] else c.fail
  | .moreExceptions => if t.kind = .comma then c.count.push [.exceptions] else c
  | .json =>
    if t.kind = .openCurl then c.count.push [.members, .mark .closeCurl, .close]
    else if t.kind = .openSquare then c.count.push [.elements, .mark .closeSquare, .close]
    else if t.isJsonLiteral then c.count
    else c.fail
  | .members =>
    if t.kind = .closeCurl || t.kind = .eof then c
    else if t.kind = .stringLit then
      c.count.push [.mark .colon, .json, .close, .recover (some .listItem), .moreMembers]
    else c.fail.push [.close, .recover (some .listItem), .moreMembers]
  | .moreMembers => if t.kind = .comma then c.count.push [.members] else c
  | .elements =>
    if t.kind = .closeSquare || t.kind = .eof then c
    else c.push [.json, .recover (some .listItem), .moreElements]
  | .moreElements => if t.kind = .comma then c.count.push [.elements] else c

/-- Passes over one goal after an error. -/
def unwind (c : Control) (t : Token) : Goal → Control
  | .leaveBlock => { c with blocks := c.blocks - 1 }
  | .recover skipped => { c with ok := true }.recover t skipped
  | _ => c

/-- One step with the next token in sight. -/
def step (c : Control) (comma : Bool) (t : Token) : Control :=
  match c.goals with
  | [] => c
  | g :: rest =>
    if c.ok then { c with goals := rest }.work comma t g else { c with goals := rest }.unwind t g

end Control

namespace Machine

/-- The state of the parser without what it has built. -/
def control (m : Machine) : Control := ⟨m.goals, m.ok, m.taken, m.blocks⟩

@[simp] theorem control_onTop (m : Machine) (f : Frame → Frame) :
    (m.onTop f).control = m.control := by
  unfold onTop; split <;> rfl

@[simp] theorem control_flush (m : Machine) : m.flush.control = m.control := by
  simpa [flush, control] using m.control_onTop _

@[simp] theorem control_hold (m : Machine) (t : Token) : (m.hold t).control = m.control := by
  unfold hold; split <;> rfl

@[simp] theorem control_receive (m : Machine) (l : Lexeme) : (m.receive l).control = m.control := by
  unfold receive
  induction l.leading generalizing m with
  | nil => rfl
  | cons t rest ih => rw [List.foldl_cons, ih, control_hold]

@[simp] theorem control_begin (m : Machine) (kind : NodeKind) (error : Option SyntaxError) :
    (m.begin kind error).control = m.control := m.control_flush

@[simp] theorem control_become (m : Machine) (kind : NodeKind) :
    (m.become kind).control = m.control := m.control_onTop _

@[simp] theorem control_becomeError (m : Machine) (error : Option SyntaxError) :
    (m.becomeError error).control = m.control := m.control_onTop _

@[simp] theorem control_close (m : Machine) : m.close.control = m.control := by
  unfold close; split <;> rfl

@[simp] theorem control_wrapLast (m : Machine) (kind : NodeKind) :
    (m.wrapLast kind).control = m.control := by
  unfold wrapLast
  split
  · split <;> rfl
  · rfl

@[simp] theorem control_push (m : Machine) (goals : List Goal) :
    (m.push goals).control = m.control.push goals := rfl

@[simp] theorem control_fail (m : Machine) : m.fail.control = m.control.fail := rfl

@[simp] theorem control_take (m : Machine) (t : Token) : (m.take t).control = m.control.count := by
  have h := (m.flush.control_onTop fun f => { f with children := .leaf t :: f.children }).trans
    m.control_flush
  simp only [control, Control.mk.injEq] at h
  simp [take, control, Control.count, h]

@[simp] theorem control_takeName (m : Machine) (t : Token) :
    (m.takeName t).control = m.control.count := by
  simp [takeName]

@[simp] theorem control_report (m : Machine) (e : SyntaxError) :
    (m.report e).control = m.control := by
  simp [report]

@[simp] theorem control_reportTaken (m : Machine) (e : SyntaxError) (t : Token) :
    (m.reportTaken e t).control = m.control.count := by
  simp [reportTaken]

@[simp] theorem control_failExpected (m : Machine) (what : Expected) (t : Token) :
    (m.failExpected what t).control = m.control.fail := by
  simp [failExpected, reportExpected]

@[simp] theorem atStatementEnd_control (m : Machine) (any : Bool) (t : Token) :
    m.control.atStatementEnd any t = m.atStatementEnd any t := by
  unfold Control.atStatementEnd atStatementEnd control; rfl

theorem control_recover (m : Machine) (t : Token) (skipped : Option Skipped) :
    (m.recover t skipped).control = m.control.recover t skipped := by
  rcases skipped with _ | _ | _
  · rfl
  · simp only [recover, Control.recover, skipStatement, atStatementEnd_control]
    split_ifs <;> simp
  · simp only [recover, Control.recover]
    split_ifs <;> simp

theorem control_skipOne (m : Machine) (skipped : Skipped) (t : Token) :
    (m.skipOne skipped t).control = m.control.skipOne skipped t := by
  unfold skipOne Control.skipOne
  cases t.closer? <;> simp

theorem control_group (m : Machine) (skipped : Skipped) (closers : List TokenKind) (t : Token) :
    (m.group skipped closers t).control = m.control.group skipped closers t := by
  unfold group Control.group
  cases t.closer? <;> cases closers.tail <;> dsimp only <;> split_ifs <;> simp

theorem control_item (m : Machine) (body : Body) (t : Token) :
    (m.item body t).control = m.control.item t body := by
  cases body <;>
    simp only [item, Control.item, importStmt, annotated, skipStatement, Control.importRest] <;>
    (try split_ifs) <;> simp

theorem control_declaration (m : Machine) (body : Body) (t : Token) :
    (m.declaration body t).control = m.control.declaration t body := by
  simp only [declaration, Control.declaration, namedType]
  split_ifs <;> simp [control_recover]

theorem control_openBrace (m : Machine) (t : Token) (rest : List Goal) :
    (m.openBrace t rest).control = m.control.openBrace t rest := by
  simp only [openBrace, Control.openBrace, reportExpected]
  split_ifs <;> simp [control_recover]

theorem control_work (m : Machine) (t : Token) (g : Goal) :
    (m.work t g).control = m.control.work m.afterComma t g := by
  cases g with
  | item body => exact control_item ..
  | declaration body => exact control_declaration ..
  | enumBody => exact control_openBrace ..
  | group skipped closers => exact control_group ..
  | skip skipped any =>
    cases skipped <;> simp only [work, skip, Control.work, atStatementEnd_control] <;>
      split_ifs <;> simp [control_skipOne]
  | block body =>
    simp only [work, block, Control.work, control_openBrace]
    split_ifs <;> rfl
  | items | moreItems =>
    simp only [work, Control.work]
    split_ifs <;> first | rfl | contradiction
  | typeBody =>
    simp only [work, typeBody, Control.work, Control.typeBody]
    split_ifs <;> simp
  | leaveBlock | recover => rfl
  | _ =>
    simp only [work, enumSymbols, json, members, mark, separator, reportExpected, Control.work]
    (try split_ifs) <;> simp

theorem control_unwind (m : Machine) (t : Token) (g : Goal) :
    (m.unwind t g).control = m.control.unwind t g := by
  cases g with
  | close => exact control_close m
  | recover skipped => exact control_recover ..
  | _ => rfl

/-- The parser does what the automaton does. -/
theorem control_step (m : Machine) (t : Token) :
    (m.step t).control = m.control.step m.afterComma t := by
  unfold step Control.step
  cases h : m.goals with
  | nil => simp [control, h]
  | cons g rest =>
    simp only [control, h]
    cases m.ok
    · exact control_unwind ..
    · exact control_work ..

end Machine

end AvroIdl
