import AvroIdl.Proofs.Parser.Automaton

/-!
# What the parser does to the tree

The automaton inside the parser tells it what to do next, and what it does to the tree is a short
list of actions: it begins nodes and ends them, and takes tokens. `Control.actions` is the output of
the automaton, and `Machine.step_eq` says that a step of the parser performs these actions and goes
on in the next state of the automaton. What holds of every action holds of every step.
-/

namespace AvroIdl

/-- What the parser can do to the tree. -/
inductive Action where
  /-- Begins a node. -/
  | begin (kind : NodeKind) (error : Option SyntaxError)
  /-- Says what the innermost node is. -/
  | become (kind : NodeKind)
  /-- Makes the innermost node an error node. -/
  | becomeError (error : Option SyntaxError)
  /-- Begins a node around the newest child. -/
  | wrapLast (kind : NodeKind)
  | take (t : Token)
  /-- Takes a token as the name of the innermost node. -/
  | takeName (t : Token)
  /-- Ends the innermost node. -/
  | close
  deriving DecidableEq

namespace Action

/-- An empty error node. -/
def report (e : SyntaxError) : List Action := [.begin .error (some e), .close]

/-- An error node that says what should stand in the place of a token. -/
def expected (what : Expected) (t : Token) : List Action := report (.expected what t)

/-- Takes a token of one kind, or reports that it should stand there. -/
def mark (kind : TokenKind) (t : Token) : List Action :=
  if t.kind = kind then [.take t] else expected (.mark kind) t

/-- Takes a comma if there is one. -/
def separator (t : Token) : List Action := if t.kind = .comma then [.take t] else []

/-- One statement. -/
def item (t : Token) : Body → List Action
  | .document =>
    if t.is .importing then [.begin .importStmt none, .take t]
    else if t.is .nameSpace then [.begin .namespaceDecl none, .take t]
    else if t.is .schema then [.begin .schemaDecl none, .take t]
    else if t.kind = .atSign || t.beginsDeclaration then [.begin .invalid none]
    else [.begin .error (some (.expected .declaration t))]
  | .protocol =>
    if t.is .importing then [.begin .importStmt none, .take t]
    else if t.beginsType || t.is .void || t.beginsNamedType then [.begin .invalid none]
    else [.begin .error (some (.expected .message t))]
  | .record => [.begin .fieldDecl none]

/-- What follows the annotations of a type. -/
def typeBody (t : Token) : List Action :=
  if t.is .array then [.become .arrayType, .take t]
  else if t.is .map then [.become .mapType, .take t]
  else if t.is .union then [.become .unionType, .take t]
  else if t.is .decimal then [.become .decimalType, .take t]
  else if t.kind = .ident || t.is .null then [.become .typeRef, .takeName t]
  else [.becomeError (some (.expected .type t))]

/-- A JSON value. -/
def json (t : Token) : List Action :=
  if t.kind = .openCurl then [.begin .jsonObject none, .take t]
  else if t.kind = .openSquare then [.begin .jsonArray none, .take t]
  else if t.isJsonLiteral then [.begin .jsonLiteral none, .take t, .close]
  else expected .jsonValue t

/-- The symbols of an enum. -/
def enumSymbols (comma : Bool) (t : Token) : List Action :=
  if t.kind = .closeCurl || t.kind = .eof || (t.beginsDeclaration && !comma) then []
  else if t.isName then [.begin .enumSymbol none, .takeName t, .close]
  else [.begin .error (some (.expected .enumSymbol t)), .take t, .close]

end Action

namespace Control

/-- Begins the error node around what is skipped after an error. -/
def recoverActions (c : Control) (t : Token) : Option Skipped → List Action
  | none => []
  | some .statement => if c.atStatementEnd false t then [] else [.begin .error none]
  | some .listItem => if t.endsListItem then [] else [.begin .error none]

/-- What follows the annotations of a statement. -/
def declarationActions (c : Control) (t : Token) (body : Body) : List Action :=
  if t.is .protocol && body = .document then [.become .protocolDecl, .take t]
  else if t.is .record then [.become .recordDecl, .take t]
  else if t.is .error then [.become .errorDecl, .take t]
  else if t.is .enum then [.become .enumDecl, .take t]
  else if t.is .fixed then [.become .fixedDecl, .take t]
  else if body = .protocol && t.is .void then
    [.become .messageDecl, .begin .voidType none, .take t, .close]
  else if body = .protocol && t.beginsType then [.become .messageDecl]
  else .becomeError none :: Action.report (.danglingAnnotations t) ++
    c.recoverActions t (some .statement)

/-- The ways in which a statement goes on after its annotations, with what is done to the tree. -/
inductive Declares (c : Control) (t : Token) : Body → Control → List Action → Prop
  | protocol : Declares c t .document (c.count.push [.name, .recover none, .block .protocol])
      [.become .protocolDecl, .take t]
  | record {body : Body} : Declares c t body (c.count.push [.name, .recover none, .block .record])
      [.become .recordDecl, .take t]
  | error {body : Body} : Declares c t body (c.count.push [.name, .recover none, .block .record])
      [.become .errorDecl, .take t]
  | enum {body : Body} : Declares c t body (c.count.push [.name, .recover none, .enumBody])
      [.become .enumDecl, .take t]
  | fixed {body : Body} : Declares c t body
      (c.count.push [.name, .recover none, .mark .openParen, .integer, .mark .closeParen, .mark .semi,
        .recover (some .statement)])
      [.become .fixedDecl, .take t]
  | void : Declares c t .protocol (c.count.push Machine.messageRest)
      [.become .messageDecl, .begin .voidType none, .take t, .close]
  | message (begins : t.beginsType = true) :
      Declares c t .protocol (c.push (.type :: Machine.messageRest)) [.become .messageDecl]
  | dangling {body : Body} : Declares c t body (c.recover t (some .statement))
      (.becomeError none :: Action.report (.danglingAnnotations t) ++
        c.recoverActions t (some .statement))

theorem declares (c : Control) (t : Token) (body : Body) :
    c.Declares t body (c.declaration t body) (c.declarationActions t body) := by
  unfold declaration declarationActions
  by_cases protocol : (t.is .protocol && body = .document) = true
  · obtain ⟨-, rfl⟩ : t.is .protocol = true ∧ body = .document := by simpa using protocol
    rw [if_pos protocol, if_pos protocol]
    exact .protocol
  rw [if_neg protocol, if_neg protocol]
  by_cases record : t.is .record = true
  · rw [if_pos record, if_pos record]
    exact .record
  rw [if_neg record, if_neg record]
  by_cases error : t.is .error = true
  · rw [if_pos error, if_pos error]
    exact .error
  rw [if_neg error, if_neg error]
  by_cases enum : t.is .enum = true
  · rw [if_pos enum, if_pos enum]
    exact .enum
  rw [if_neg enum, if_neg enum]
  by_cases fixed : t.is .fixed = true
  · rw [if_pos fixed, if_pos fixed]
    exact .fixed
  rw [if_neg fixed, if_neg fixed]
  by_cases void : (body = .protocol && t.is .void) = true
  · obtain ⟨rfl, -⟩ : body = .protocol ∧ t.is .void = true := by simpa using void
    rw [if_pos void, if_pos void]
    exact .void
  rw [if_neg void, if_neg void]
  by_cases type : (body = .protocol && t.beginsType) = true
  · obtain ⟨rfl, begins⟩ : body = .protocol ∧ t.beginsType = true := by simpa using type
    rw [if_pos type, if_pos type]
    exact .message begins
  rw [if_neg type, if_neg type]
  exact .dangling

/-- The start of the braces around a body. -/
def openBraceActions (c : Control) (t : Token) : List Action :=
  if t.kind = .openCurl then [.take t]
  else Action.expected (.mark .openCurl) t ++ c.recoverActions t (some .statement)

/-- What is done to the tree for one goal. -/
def workActions (c : Control) (comma : Bool) (t : Token) : Goal → List Action
  | .items _ | .moreItems _ _ | .leaveBlock | .recover _ | .unionItems | .variableList
  | .elements => []
  | .item body => Action.item t body
  | .leftovers =>
    if t.kind = .eof then [] else [.begin .error (some (.unexpected t)), .take t, .close]
  | .close => [.close]
  | .skip .statement any => if c.atStatementEnd any t then [] else [.take t]
  | .skip .listItem _ => if t.endsListItem then [] else [.take t]
  | .group _ closers =>
    if t.kind = .eof || (t.kind = .closeCurl && closers.head? ≠ some .closeCurl) then []
    else [.take t]
  | .name => if t.isName then [.takeName t] else Action.expected .identifier t
  | .mark kind => Action.mark kind t
  | .integer => if t.kind = .intLit then [.take t] else Action.expected .integerLiteral t
  | .annotations => if t.kind = .atSign then [.begin .annotationDecl none, .take t] else []
  | .declaration body => c.declarationActions t body
  | .block _ | .enumBody => c.openBraceActions t
  | .importKind =>
    if t.is .idl || t.is .protocol || t.is .schema then [.take t]
    else Action.expected .importKind t
  | .importPath =>
    if t.kind = .stringLit then [.takeName t] else Action.expected .stringLiteral t
  | .enumSymbols => Action.enumSymbols comma t
  | .enumSeparator | .unionSeparator =>
    if t.kind = .comma then [.take t]
    else if t.kind = .closeCurl then []
    else Action.expected (.mark .comma) t
  | .enumDefault => if t.kind = .eq then [.begin .enumDefault none, .take t] else []
  | .type => if t.beginsType then [.begin .invalid none] else Action.expected .type t
  | .typeBody => Action.typeBody t
  | .nullable => if t.kind = .question then [.wrapLast .nullableType, .take t, .close] else []
  | .moreVariables | .moreParams | .moreExceptions | .moreMembers | .moreElements =>
    Action.separator t
  | .variableDecl => [.begin .variableDecl none]
  | .initializer => if t.kind = .eq then [.take t] else []
  | .params => if t.kind = .closeParen || t.kind = .eof then [] else [.begin .formalParam none]
  | .messageEnd =>
    if t.is .oneway then [.take t]
    else if t.is .throws then [.begin .throwsClause none, .take t]
    else []
  | .exceptions =>
    if t.kind = .ident then [.begin .typeRef none, .takeName t, .close]
    else Action.expected .identifier t
  | .json => Action.json t
  | .members =>
    if t.kind = .closeCurl || t.kind = .eof then []
    else if t.kind = .stringLit then [.begin .jsonMember none, .takeName t]
    else .begin .jsonMember none :: Action.expected .stringLiteral t

/-- What is done to the tree when a goal is passed over after an error. -/
def unwindActions (c : Control) (t : Token) : Goal → List Action
  | .close => [.close]
  | .recover skipped => c.recoverActions t skipped
  | _ => []

/-- What a step does to the tree. -/
def actions (c : Control) (comma : Bool) (t : Token) : List Action :=
  match c.goals with
  | [] => []
  | g :: rest =>
    if c.ok then { c with goals := rest }.workActions comma t g
    else { c with goals := rest }.unwindActions t g

end Control

namespace Machine

/-- Does one thing to the tree. -/
def act (m : Machine) : Action → Machine
  | .begin kind error => m.begin kind error
  | .become kind => m.become kind
  | .becomeError error => m.becomeError error
  | .wrapLast kind => m.wrapLast kind
  | .take t => m.take t
  | .takeName t => m.takeName t
  | .close => m.close

/-- Does one thing after the other to the tree. -/
def perform (m : Machine) (actions : List Action) : Machine := actions.foldl act m

/-- The parser in another state of the automaton. -/
def resume (m : Machine) (c : Control) : Machine :=
  { m with goals := c.goals, ok := c.ok, taken := c.taken, blocks := c.blocks }

@[simp] theorem resume_control (m : Machine) : m.resume m.control = m := rfl

@[simp] theorem control_resume (m : Machine) (c : Control) : (m.resume c).control = c := rfl

@[simp] theorem resume_resume (m : Machine) (c c' : Control) :
    (m.resume c).resume c' = m.resume c' := rfl

@[simp] theorem perform_nil (m : Machine) : m.perform [] = m := rfl

@[simp] theorem perform_cons (m : Machine) (a : Action) (rest : List Action) :
    m.perform (a :: rest) = (m.act a).perform rest := rfl

@[simp] theorem perform_append (m : Machine) (as bs : List Action) :
    m.perform (as ++ bs) = (m.perform as).perform bs := List.foldl_append ..

/-- The state of the automaton makes no difference to an action. -/
theorem act_resume (m : Machine) (c d : Control) (a : Action) :
    ((m.resume c).act a).resume d = (m.act a).resume d := by
  obtain ⟨arena, generation, frames, pending, goals, ok, taken, blocks⟩ := m
  cases a with
  | close | wrapLast =>
    rcases frames with _ | ⟨f, _ | ⟨g, rest⟩⟩ <;> try rfl
    all_goals
      simp only [act, wrapLast, resume]
      cases f.children <;> rfl
  | _ => cases frames <;> rfl

theorem perform_resume (m : Machine) (c d : Control) (actions : List Action) :
    ((m.resume c).perform actions).resume d = (m.perform actions).resume d := by
  induction actions generalizing m c with
  | nil => rfl
  | cons a rest ih =>
    have same := m.act_resume c ((m.resume c).act a).control a
    rw [resume_control] at same
    rw [perform_cons, perform_cons, same, ih]

/-- `next` is what becomes of `m` by some actions, in some state of the automaton. -/
def Does (m : Machine) (actions : List Action) (next : Machine) : Prop :=
  next = (m.perform actions).resume next.control

theorem Does.append {m next : Machine} (as : List Action) {bs : List Action}
    (h : Does (m.perform as) bs next) : Does m (as ++ bs) next := by
  unfold Does at h ⊢
  rw [perform_append]
  exact h

theorem Does.of_resume {m next : Machine} (c : Control) {as : List Action}
    (h : Does (m.resume c) as next) : Does m as next := by
  unfold Does at h ⊢
  rwa [perform_resume] at h

theorem recover_does (m : Machine) (t : Token) (skipped : Option Skipped) :
    Does m (m.control.recoverActions t skipped) (m.recover t skipped) := by
  unfold Control.recoverActions recover
  rcases skipped with _ | _ | _
  · rfl
  · rw [atStatementEnd_control]
    split_ifs <;> rfl
  · dsimp only
    split_ifs <;> rfl

theorem skipOne_does (m : Machine) (skipped : Skipped) (t : Token) :
    Does m [.take t] (m.skipOne skipped t) := by
  unfold skipOne
  split <;> rfl

theorem group_does (m : Machine) (skipped : Skipped) (closers : List TokenKind) (t : Token) :
    Does m (m.control.workActions m.afterComma t (.group skipped closers))
      (m.group skipped closers t) := by
  simp only [group, Control.workActions]
  have curl (k : t.kind = .closeCurl) : t.closer? = none ∧ t.isCloser = true := by
    simp [Token.closer?, Token.isCloser, k]
  cases closer : t.closer? <;> cases closers.tail <;> dsimp only <;> split_ifs <;>
    first | rfl | (exfalso; simp_all)

theorem item_does (m : Machine) (body : Body) (t : Token) :
    Does m (Action.item t body) (m.item body t) := by
  cases body <;> simp only [item, Action.item] <;> (try split_ifs) <;> rfl

theorem declaration_does (m : Machine) (body : Body) (t : Token) :
    Does m (m.control.declarationActions t body) (m.declaration body t) := by
  simp only [declaration, Control.declarationActions, namedType]
  split_ifs <;> try rfl
  have rest := recover_does ((m.becomeError none).report (.danglingAnnotations t)) t
    (some .statement)
  simp only [control_report, control_becomeError] at rest
  exact Does.append (.becomeError none :: Action.report (.danglingAnnotations t)) rest

theorem openBrace_does (m : Machine) (t : Token) (rest : List Goal) :
    Does m (m.control.openBraceActions t) (m.openBrace t rest) := by
  simp only [openBrace, Control.openBraceActions]
  split_ifs
  · rfl
  · have rest := recover_does (m.reportExpected (.mark .openCurl) t) t (some .statement)
    simp only [reportExpected, control_report] at rest
    exact Does.append (Action.expected (.mark .openCurl) t) rest

theorem work_does (m : Machine) (t : Token) (g : Goal) :
    Does m (m.control.workActions m.afterComma t g) (m.work t g) := by
  cases g with
  | item body => exact item_does ..
  | declaration body => exact declaration_does ..
  | enumBody => exact openBrace_does ..
  | group skipped closers => exact group_does ..
  | skip skipped any =>
    cases skipped <;> simp only [work, skip, Control.workActions, atStatementEnd_control] <;>
      split_ifs <;> first | exact skipOne_does .. | rfl
  | block body =>
    simp only [work, block]
    split_ifs with curl
    · have inside := openBrace_does { m with blocks := m.blocks + 1 } t
        [.items body, .leaveBlock, .mark .closeCurl, .recover none]
      simp only [Control.openBraceActions, curl, if_true] at inside
      simp only [Control.workActions, Control.openBraceActions, curl, if_true]
      exact Does.of_resume { m.control with blocks := m.blocks + 1 } inside
    · exact openBrace_does ..
  | _ =>
    simp only [work, enumSymbols, json, members, mark, separator, reportExpected, typeBody,
      Control.workActions, Action.enumSymbols, Action.json, Action.mark, Action.separator,
      Action.typeBody]
    (try split_ifs) <;> rfl

theorem unwind_does (m : Machine) (t : Token) (g : Goal) :
    Does m (m.control.unwindActions t g) (m.unwind t g) := by
  cases g with
  | recover skipped =>
    have rest := recover_does { m with ok := true } t skipped
    have same : ({ m with ok := true } : Machine).control.recoverActions t skipped =
        m.control.recoverActions t skipped := by
      rcases skipped with _ | _ | _ <;> rfl
    rw [same] at rest
    exact Does.of_resume { m.control with ok := true } rest
  | _ => rfl

/-- A step of the parser performs the actions that the automaton asks for, and goes on in its next
state. -/
theorem step_eq (m : Machine) (t : Token) :
    m.step t = (m.perform (m.control.actions m.afterComma t)).resume
      (m.control.step m.afterComma t) := by
  rw [← control_step]
  change Does m _ _
  obtain ⟨arena, generation, frames, pending, goals, ok, taken, blocks⟩ := m
  cases goals with
  | nil => rfl
  | cons g rest =>
    cases ok with
    | false => exact Does.of_resume ⟨rest, false, taken, blocks⟩ (unwind_does ..)
    | true => exact Does.of_resume ⟨rest, true, taken, blocks⟩ (work_does ..)

end Machine

end AvroIdl
