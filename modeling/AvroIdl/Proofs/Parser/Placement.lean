import AvroIdl.Proofs.Parser.Naming
import Mathlib.Data.List.Chain

/-!
# Where nodes stand

Whatever the text is, protocols stand in the document, and types are declared in the document or in
a protocol. Below an annotation, a JSON value, an error or the name of a type there is neither a
declaration nor a type. `NodeKind.holds` says which node can stand right below which.

The kinds of the open nodes decide this: `Goal.Suits` says what a goal needs of them, and
`Control.fits_work` that it is there when the goal is reached.

* `Machine.Sited.act`: every action puts nodes where they can stand;
* `Machine.Titled.step`: a node that refers to a type is named when it ends.
-/

namespace AvroIdl

open Element (AllOf)

namespace NodeKind

/-- Whether there is neither a declaration nor a type below nodes of this kind. -/
def isBare : NodeKind → Bool
  | invalid | error | annotationDecl | typeRef | jsonObject | jsonMember | jsonArray
  | jsonLiteral => true
  | _ => false

/-- Whether a node of kind `child` can stand right below one of kind `parent`. -/
def holds (parent child : NodeKind) : Bool :=
  match child with
  | document => false
  | protocolDecl => parent = document
  | recordDecl | errorDecl | enumDecl | fixedDecl => parent = document || parent = protocolDecl
  | error | annotationDecl | jsonObject | jsonMember | jsonArray | jsonLiteral => true
  | _ => !parent.isBare

/-- Whether statements of a body can stand right below nodes of this kind. All of them can stand in
the outermost node, which holds a single statement when that is read again. -/
def isSite (kind : NodeKind) : Body → Bool
  | .document => kind = document
  | .protocol => kind = document || kind = protocolDecl
  | .record => kind = document || kind = recordDecl || kind = errorDecl

theorem isBare_of_isSite {kind : NodeKind} {body : Body} (h : kind.isSite body = true) :
    kind.isBare = false := by
  cases body <;> cases kind <;> simp_all [isSite, isBare]

/-- What stands below a node without declarations and types can stand below every node. -/
theorem holds_of_isBare {parent child : NodeKind} (bare : parent.isBare = true)
    (h : parent.holds child = true) (other : NodeKind) : other.holds child = true := by
  cases child <;> simp_all [holds] <;> cases parent <;> simp_all [isBare]

/-- What a question mark can follow can stand in a nullable type. -/
theorem nullable_holds {child : NodeKind} (h : child.isPart = true) :
    nullableType.holds child = true := by
  cases child <;> simp_all [isPart, standsAlone, body?, holds, isBare]

end NodeKind

/-! ## Goals and the kinds of open nodes -/

namespace Action

/-- The kinds of the open nodes, from the inside out, after an action. -/
def onKinds (ks : List NodeKind) : Action → List NodeKind
  | .begin kind _ | .wrapLast kind => kind :: ks
  | .become kind => kind :: ks.tail
  | .becomeError _ => .error :: ks.tail
  | .take _ | .takeName _ => ks
  | .close => ks.tail

/-- The node that an action begins, or gives a kind to, can stand where it is. -/
def Stands (ks : List NodeKind) : Action → Prop
  | .begin kind _ => ∀ p ∈ ks.head?, p.holds kind = true
  | .wrapLast kind => kind = .nullableType ∧ ∀ p ∈ ks.head?, p.holds kind = true
  | .become kind => ∀ p ∈ ks.tail.head?, p.holds kind = true
  | _ => True

/-- All nodes that a list of actions begins can stand where they are. -/
def AllStand (ks : List NodeKind) : List Action → Prop
  | [] => True
  | a :: rest => a.Stands ks ∧ AllStand (a.onKinds ks) rest

end Action

/-- What a goal needs of the kinds of the open nodes. -/
def Goal.Suits (ks : List NodeKind) : Goal → Prop
  | .items body | .moreItems body _ | .item body | .block body =>
    ∃ k ∈ ks.head?, k.isSite body = true
  | .declaration body => body ≠ .record ∧ ∃ k ∈ ks.tail.head?, k.isSite body = true
  | .typeBody => ∃ k ∈ ks.tail.head?, k.isBare = false
  | .enumBody | .enumSymbols | .enumDefault | .type | .nullable | .unionItems | .unionSeparator
  | .variableList | .moreVariables | .variableDecl | .params | .moreParams | .messageEnd
  | .exceptions | .moreExceptions => ∃ k ∈ ks.head?, k.isBare = false
  | _ => True

/-- Every goal finds what it needs when it is reached. -/
def Suited : List Goal → List NodeKind → Prop
  | [], _ => True
  | .close :: rest, ks => Suited rest ks.tail
  | g :: rest, ks => g.Suits ks ∧ Suited rest ks

namespace Control

open Action (AllStand)

variable {c : Control} {ks : List NodeKind}

/-- What a step does to the open nodes, and what is left to do then. -/
def Fits (ks : List NodeKind) (actions : List Action) (goals : List Goal) : Prop :=
  AllStand ks actions ∧ Suited goals (actions.foldl Action.onKinds ks)

@[simp] theorem fits_nil {goals : List Goal} : Fits ks [] goals ↔ Suited goals ks :=
  iff_of_eq (true_and _)

@[simp] theorem fits_cons {a : Action} {rest : List Action} {goals : List Goal} :
    Fits ks (a :: rest) goals ↔ a.Stands ks ∧ Fits (a.onKinds ks) rest goals := and_assoc

theorem fits_recover (t : Token) (skipped : Option Skipped) (h : Suited c.goals ks) :
    Fits ks (c.recoverActions t skipped) (c.recover t skipped).goals := by
  rcases skipped with _ | _ | _
  · exact ⟨trivial, h⟩
  all_goals
    simp only [recover, recoverActions]
    split_ifs
    · exact ⟨trivial, h⟩
    · simp [Action.Stands, Action.onKinds, NodeKind.holds, push, Suited, Goal.Suits, h]

theorem exists_of_suits {p : NodeKind → Prop} (h : ∃ k ∈ ks.head?, p k) :
    ∃ k rest, ks = k :: rest ∧ p k := by
  obtain ⟨k, head, here⟩ := h
  obtain ⟨rest, rfl⟩ := List.head?_eq_some_iff.mp head
  exact ⟨k, rest, rfl, here⟩

theorem fits_openBrace (t : Token) {inside : List Goal} (h : Suited c.goals ks)
    (within : Suited (inside ++ c.goals) ks) :
    Fits ks (c.openBraceActions t) (c.openBrace t inside).goals := by
  have recovers := fits_recover t (some .statement) h
  simp only [openBrace, openBraceActions]
  split_ifs
  · simpa [Action.Stands, Action.onKinds, push, count] using within
  · simpa [Action.Stands, Action.onKinds, Action.expected, Action.report,
      NodeKind.holds] using recovers

theorem fits_declaration {t : Token} {body : Body} {after : Control} {actions : List Action}
    {rest : List Goal} (declares : c.Declares t body after actions)
    (ends : c.goals = .close :: rest) (h : Suited rest ks.tail)
    (suits : (Goal.declaration body).Suits ks) : Fits ks actions after.goals := by
  obtain ⟨other, k, head, site⟩ := suits
  obtain ⟨below, eq⟩ := List.head?_eq_some_iff.mp head
  rw [eq] at h
  have recovers : Fits (.error :: k :: below) (c.recoverActions t (some .statement))
      (c.recover t (some .statement)).goals := fits_recover t _ (by rw [ends]; exact h)
  have outer : k = .document ∨ k = .protocolDecl := by
    cases body <;> simp_all [NodeKind.isSite]
  cases declares with
  | protocol =>
    obtain rfl : k = .document := by simpa [NodeKind.isSite] using site
    simp [Action.Stands, Action.onKinds, push, count, Suited, Goal.Suits,
      NodeKind.holds, NodeKind.isSite, eq, ends, h]
  | dangling =>
    rcases outer with rfl | rfl <;>
      simpa [Action.Stands, Action.onKinds, Action.report, NodeKind.holds, eq] using recovers
  | _ =>
    rcases outer with rfl | rfl <;>
      simp [Action.Stands, Action.onKinds, push, count, Suited, Goal.Suits, NodeKind.holds,
        NodeKind.isSite, NodeKind.isBare, Machine.messageRest, eq, ends, h]

theorem fits_work (comma : Bool) (t : Token) {g : Goal} (h : Suited (g :: c.goals) ks)
    (ends : g = .typeBody ∨ (∃ body, g = .declaration body) → ∃ rest, c.goals = .close :: rest) :
    Fits ks (c.workActions comma t g) (c.work comma t g).goals := by
  cases g with
  | items body =>
    simp only [work, workActions]
    split_ifs <;> simp_all [push, Suited, Goal.Suits]
  | moreItems body before =>
    simp only [work, workActions]
    split_ifs <;> simp_all [push, Suited, Goal.Suits]
  | item body =>
    clear ends
    obtain ⟨suits, rest⟩ := h
    obtain ⟨k, below, rfl, site⟩ := exists_of_suits suits
    have open' := NodeKind.isBare_of_isSite site
    cases body <;> simp only [work, workActions, item, Action.item, importRest] <;>
      (try split_ifs) <;>
      simp_all [Action.Stands, Action.onKinds, push, count, Suited, Goal.Suits,
        NodeKind.holds, NodeKind.isSite] <;> rfl
  | declaration body =>
    obtain ⟨rest, ends⟩ := ends (.inr ⟨body, rfl⟩)
    refine fits_declaration (c.declares t body) ends ?_ h.1
    have rest := h.2
    rwa [ends, Suited] at rest
  | typeBody =>
    obtain ⟨rest, ends⟩ := ends (.inl rfl)
    obtain ⟨⟨k, head, bare⟩, later⟩ := h
    obtain ⟨below, eq⟩ := List.head?_eq_some_iff.mp head
    rw [ends, Suited, eq] at later
    simp only [work, workActions, typeBody, Action.typeBody]
    split_ifs <;>
      simp [Action.Stands, Action.onKinds, push, count, fail, Suited, Goal.Suits,
        NodeKind.holds, eq, ends, later, bare] <;> rfl
  | block body =>
    obtain ⟨suits, rest⟩ := h
    have within : Suited
        ([Goal.items body, .leaveBlock, .mark .closeCurl, .recover none] ++ c.goals) ks :=
      ⟨suits, trivial, trivial, trivial, rest⟩
    simp only [work, workActions]
    split_ifs with curl
    · simpa [openBrace, openBraceActions, curl, Action.Stands, Action.onKinds, push,
        count] using within
    · exact fits_openBrace t rest within
  | enumBody =>
    obtain ⟨suits, rest⟩ := h
    exact fits_openBrace t rest ⟨suits, trivial, suits, trivial, rest⟩
  | group skipped closers =>
    obtain ⟨-, rest⟩ := h
    simp only [work, workActions, group]
    cases closer : t.closer? <;> cases closers.tail <;> dsimp only <;> split_ifs <;>
      simp [Action.Stands, Action.onKinds, push, count, Suited, Goal.Suits, rest]
  | skip skipped any =>
    obtain ⟨-, rest⟩ := h
    cases skipped <;> simp only [work, workActions, skipOne] <;> split_ifs <;> (try split) <;>
      simp [Action.Stands, Action.onKinds, push, count, Suited, Goal.Suits, rest]
  | close => exact ⟨⟨trivial, trivial⟩, h⟩
  | enumSymbols | enumDefault | type | nullable | unionItems | unionSeparator | variableList
  | moreVariables | variableDecl | params | moreParams | messageEnd | exceptions | moreExceptions =>
    clear ends
    obtain ⟨suits, rest⟩ := h
    obtain ⟨k, below, rfl, bare⟩ := exists_of_suits suits
    simp only [work, workActions, Action.enumSymbols, Action.separator, Action.expected,
      Action.report]
    (try split_ifs) <;>
      simp_all [Action.Stands, Action.onKinds, push, count, fail, Suited, Goal.Suits,
        NodeKind.holds] <;> rfl
  | _ =>
    obtain ⟨-, rest⟩ := h
    simp only [work, workActions, Action.mark, Action.json, Action.separator, Action.expected,
      Action.report]
    (try split_ifs) <;>
      simp [Action.Stands, Action.onKinds, push, count, fail, Suited, Goal.Suits,
        NodeKind.holds, rest]

theorem fits_unwind (t : Token) {g : Goal} (h : Suited (g :: c.goals) ks) :
    Fits ks (c.unwindActions t g) (c.unwind t g).goals := by
  cases g with
  | close => exact ⟨⟨trivial, trivial⟩, h⟩
  | recover skipped =>
    have same : c.recoverActions t skipped =
        ({ c with ok := true } : Control).recoverActions t skipped := by
      rcases skipped with _ | _ | _ <;> rfl
    rw [unwindActions, same]
    exact fits_recover (c := { c with ok := true }) t skipped h.2
  | _ => exact ⟨trivial, h.2⟩

end Control

/-! ## What the parser builds -/

/-- An element is an error node, unless it is a leaf. -/
def Element.IsError : Element → Prop
  | .leaf _ => True
  | .node l _ => l.kind = .error

/-- The children of a node can stand there. -/
def Element.Sited (l : Label) (children : List Element) : Prop :=
  ∀ l' inside, .node l' inside ∈ children → l.kind.holds l'.kind = true

/-- The children of an open node can stand there. -/
def Frame.Sited (f : Frame) : Prop :=
  ∀ l inside, .node l inside ∈ f.children → f.kind.holds l.kind = true

namespace Machine

/-- The kinds of the open nodes, from the inside out. -/
def kinds (m : Machine) : List NodeKind := m.frames.map Frame.kind

variable {m : Machine}

theorem kinds_onTop {change : Frame → Frame} (same : ∀ f, (change f).kind = f.kind) :
    (m.onTop change).kinds = m.kinds := by
  unfold kinds onTop
  cases h : m.frames <;> simp [h, same]

@[simp] theorem kinds_flush (m : Machine) : m.flush.kinds = m.kinds := kinds_onTop fun _ => rfl

@[simp] theorem kinds_take (m : Machine) (t : Token) : (m.take t).kinds = m.kinds := by
  rw [← kinds_flush m]
  exact kinds_onTop fun _ => rfl

@[simp] theorem kinds_takeName (m : Machine) (t : Token) : (m.takeName t).kinds = m.kinds := by
  rw [takeName, kinds_take, ← kinds_flush m]
  exact kinds_onTop fun _ => rfl

/-- An action does to the kinds of the open nodes what it says. -/
theorem kinds_act {a : Action} (enabled : a.Enabled m) : (m.act a).kinds = a.onKinds m.kinds := by
  have outer (inner : m.frames.tail ≠ []) : ∃ f below, m.frames = f :: below :=
    List.exists_cons_of_ne_nil fun none => inner (by rw [none]; rfl)
  cases a with
  | begin kind error =>
    have flushed : m.flush.frames.map Frame.kind = m.kinds := m.kinds_flush
    simp [act, kinds, Action.onKinds, flushed]
  | become kind =>
    obtain ⟨f, below, hm⟩ := outer enabled.2.1
    simp [act, become, onTop, kinds, hm, Action.onKinds]
  | becomeError error =>
    obtain ⟨f, below, hm⟩ := outer enabled.1
    simp [act, becomeError, onTop, kinds, hm, Action.onKinds]
  | wrapLast kind =>
    obtain ⟨_, f, top, l, children, others, hc, _⟩ := enabled
    obtain ⟨below, hm⟩ : ∃ below, m.frames = f :: below := List.head?_eq_some_iff.mp top
    simp [act, wrapLast, kinds, hm, hc, Action.onKinds]
  | take t => exact m.kinds_take t
  | takeName t => exact m.kinds_takeName t
  | close =>
    obtain ⟨f, g, below, hm, closed⟩ := close_frames enabled
    simp [act, kinds, closed, hm, Action.onKinds]

@[simp] theorem pending_take (m : Machine) (t : Token) : (m.take t).pending = [] :=
  m.flush.pending_onTop _

/-- Whatever the parser has built stands where it can. -/
structure Sited (m : Machine) : Prop where
  /-- Every open node can stand in the one around it. -/
  nested : m.kinds.IsChain fun child parent => parent.holds child = true
  frames : ∀ f ∈ m.frames, f.Sited
  /-- Of what waits to become part of a node, only malformed tokens are nodes. -/
  pending : ∀ e ∈ m.pending, e.IsError
  elements : AllOf Element.Sited m.elements

theorem Sited.flush (h : m.Sited) (some : m.frames ≠ []) : m.flush.Sited := by
  refine ⟨by simpa using h.nested, ?_, ?_, ?_⟩
  · refine forall_onTop h.frames fun f _ sited l inside mem => ?_
    rcases List.mem_append.mp mem with waits | old
    · have error : l.kind = .error := h.pending _ (List.mem_reverse.mp waits)
      rw [error]
      rfl
    · exact sited l inside old
  · intro e mem
    contradiction
  · rw [elements_flush some]
    exact h.elements

theorem Sited.take (h : m.Sited) (some : m.frames ≠ []) (t : Token) : (m.take t).Sited := by
  have flushed := h.flush some
  refine ⟨by simpa using h.nested, ?_, ?_, ?_⟩
  · refine forall_onTop flushed.frames fun f _ sited l inside mem => ?_
    rcases List.mem_cons.mp mem with leaf | old
    · contradiction
    · exact sited l inside old
  · intro e mem
    rw [pending_take] at mem
    contradiction
  · rw [elements_take some]
    exact allOf_leaf h.elements t

theorem Sited.takeName (h : m.Sited) (some : m.frames ≠ []) (t : Token) :
    (m.takeName t).Sited := by
  have flushed := h.flush some
  have named : (m.flush.onTop fun f => { f with name := .some f.children.length }).Sited := by
    refine ⟨?_, forall_onTop flushed.frames fun f _ sited => sited, ?_, ?_⟩
    · have same : (m.flush.onTop fun f => { f with name := .some f.children.length }).kinds =
          m.flush.kinds := kinds_onTop fun _ => rfl
      rw [same]
      exact flushed.nested
    · rw [pending_onTop]
      exact flushed.pending
    · have same : (m.flush.onTop fun f => { f with name := .some f.children.length }).elements =
          m.flush.elements := elements_onTop fun _ => rfl
      rw [same]
      exact flushed.elements
  exact named.take (by simpa using some) t

theorem Sited.become (h : m.Sited) {kind : NodeKind} {change : Frame → Frame}
    (same : ∀ f, (change f).children = f.children) (given : ∀ f, (change f).kind = kind)
    (bare : ∀ f ∈ m.frames.head?, f.kind = .invalid) (inner : m.frames.tail ≠ [])
    (stands : ∀ p ∈ m.kinds.tail.head?, p.holds kind = true) : (m.onTop change).Sited := by
  obtain ⟨f, below, hm⟩ : ∃ f below, m.frames = f :: below :=
    List.exists_cons_of_ne_nil fun none => inner (by rw [none]; rfl)
  refine ⟨?_, ?_, ?_, ?_⟩
  · have nested := h.nested
    simp only [kinds, Machine.onTop, hm, List.map_cons, given, List.tail_cons] at nested stands ⊢
    exact List.isChain_cons.mpr ⟨stands, nested.tail⟩
  · refine forall_onTop h.frames fun g top sited l inside mem => ?_
    rw [same] at mem
    have held := sited l inside mem
    rw [bare g top] at held
    exact NodeKind.holds_of_isBare rfl held _
  · rw [pending_onTop]
    exact h.pending
  · rw [elements_onTop same]
    exact h.elements

theorem Sited.wrapLast (h : m.Sited) (enabled : (Action.wrapLast .nullableType).Enabled m)
    (stands : ∀ p ∈ m.kinds.head?, p.holds .nullableType = true) :
    (m.wrapLast .nullableType).Sited := by
  have kinds := kinds_act enabled
  obtain ⟨_, f, top, l, children, others, hc, part⟩ := enabled
  obtain ⟨below, hm⟩ : ∃ below, m.frames = f :: below := List.head?_eq_some_iff.mp top
  have frames := h.frames
  rw [hm] at frames
  refine ⟨?_, ?_, ?_, ?_⟩
  · exact kinds ▸ List.isChain_cons.mpr ⟨stands, h.nested⟩
  · simp only [Machine.wrapLast, hm, hc]
    intro g mem
    rcases List.mem_cons.mp mem with rfl | mem
    · intro l' inside last
      obtain ⟨rfl, -⟩ := Element.node.inj (List.mem_singleton.mp last)
      exact NodeKind.nullable_holds part
    · rcases List.mem_cons.mp mem with rfl | mem
      · intro l' inside old
        exact frames f List.mem_cons_self l' inside (by rw [hc]; exact .tail _ old)
      · exact frames g (.tail _ mem)
  · simpa only [Machine.wrapLast, hm, hc] using h.pending
  · rw [elements_wrapLast hm (by simp [hc])]
    exact h.elements

/-- A node ends where it can stand. -/
theorem Sited.close (h : m.Sited) (inner : m.frames.tail ≠ []) : m.close.Sited := by
  have kinds : m.close.kinds = m.kinds.tail := kinds_act (a := .close) inner
  obtain ⟨f, g, below, hm, closed⟩ := close_frames inner
  have frames := h.frames
  have nested := h.nested
  rw [hm] at frames
  refine ⟨kinds ▸ nested.tail, ?_, ?_, ?_⟩
  · rw [closed]
    intro k mem
    rcases List.mem_cons.mp mem with rfl | mem
    · intro l inside child
      rcases List.mem_cons.mp child with new | old
      · obtain ⟨rfl, -⟩ := Element.node.inj new
        simp only [Machine.kinds, hm, List.map_cons] at nested
        exact (List.isChain_cons_cons.mp nested).1
      · exact frames g (by simp) l inside old
    · exact frames k (.tail _ (.tail _ mem))
  · simpa only [Machine.close, hm] using h.pending
  · refine allOf_close hm h.elements fun l inside child => ?_
    exact frames f List.mem_cons_self l inside (List.mem_reverse.mp child)

/-- Every action puts nodes where they can stand. -/
theorem Sited.act (h : m.Sited) {a : Action} (enabled : a.Enabled m) (stands : a.Stands m.kinds) :
    (m.act a).Sited := by
  have outer (inner : m.frames.tail ≠ []) : m.frames ≠ [] := fun none => inner (by rw [none]; rfl)
  cases a with
  | begin kind error =>
    have kinds := kinds_act enabled
    have flushed := h.flush enabled
    refine ⟨?_, ?_, flushed.pending, ?_⟩
    · rw [kinds]
      exact List.isChain_cons.mpr ⟨stands, h.nested⟩
    · intro f mem
      rw [Machine.act, frames_begin] at mem
      rcases List.mem_cons.mp mem with rfl | mem
      · intro l inside child
        contradiction
      · exact flushed.frames f mem
    · rw [Machine.act, elements_begin enabled]
      exact h.elements
  | become kind =>
    exact h.become (fun _ => rfl) (fun _ => rfl) enabled.2.2 enabled.2.1 stands
  | becomeError error =>
    have stands : ∀ p ∈ m.kinds.tail.head?, p.holds .error = true := fun _ _ => rfl
    exact h.become (fun _ => rfl) (fun _ => rfl) enabled.2 enabled.1 stands
  | wrapLast kind =>
    obtain ⟨rfl, stands⟩ := stands
    exact h.wrapLast enabled stands
  | take t => exact h.take (outer enabled) t
  | takeName t => exact h.takeName (outer enabled.1) t
  | close => exact h.close enabled

theorem Sited.perform (h : m.Sited) {actions : List Action} (performs : m.Performs actions)
    (stand : Action.AllStand m.kinds actions) :
    (m.perform actions).Sited ∧
      (m.perform actions).kinds = actions.foldl Action.onKinds m.kinds := by
  induction actions generalizing m with
  | nil => exact ⟨h, rfl⟩
  | cons a rest ih =>
    have kinds := kinds_act performs.1
    rw [perform_cons, List.foldl_cons, ← kinds]
    exact ih (h.act performs.1 stand.1) performs.2 (kinds ▸ stand.2)

theorem pending_receive {P : Element → Prop} (h : ∀ e ∈ m.pending, P e) (leaf : ∀ t, P (.leaf t))
    (held : ∀ (arena : Arena) (generation : UInt64) (error : Option SyntaxError) (t : Token),
      P (.node (arena.nextLabel generation .error none error [.leaf t]) [.leaf t])) (l : Lexeme) :
    ∀ e ∈ (m.receive l).pending, P e := by
  unfold Machine.receive
  induction l.leading generalizing m with
  | nil => exact h
  | cons t rest ih =>
    refine ih ?_
    unfold Machine.hold
    intro e mem
    split at mem <;> rcases List.mem_append.mp mem with old | new
    · exact h e old
    · exact List.mem_singleton.mp new ▸ leaf t
    · exact h e old
    · exact List.mem_singleton.mp new ▸ held ..

theorem Sited.receive (h : m.Sited) (l : Lexeme) : (m.receive l).Sited := by
  refine ⟨?_, ?_, ?_, ?_⟩
  · rw [kinds, frames_receive]
    exact h.nested
  · rw [frames_receive]
    exact h.frames
  · exact pending_receive h.pending (fun _ => trivial) (fun _ _ _ _ => rfl) l
  · refine allOf_receive h.elements (fun _ _ _ _ l' inside mem => ?_) l
    simp at mem

end Machine

/-! ## Nodes that refer to types are named -/

/-- A node that refers to a type has a name. -/
def Element.Titled (l : Label) (_ : List Element) : Prop :=
  l.kind = .typeRef → l.name.isSome = true

/-- An open node that refers to a type has a name. -/
def Frame.Titled (f : Frame) : Prop := f.kind = .typeRef → f.name.isSome = true

/-- Whether an action says of a node that it refers to a type. -/
def Action.refers : Action → Bool
  | .begin kind _ | .become kind | .wrapLast kind => kind = .typeRef
  | _ => false

/-- Whether nothing that is done makes a node refer to a type. -/
def Action.noneRefers (actions : List Action) : Bool := actions.all fun a => !a.refers

theorem Action.refers_of_mem {actions : List Action} (h : noneRefers actions = true) {a : Action}
    (mem : a ∈ actions) : a.refers = false := by
  simpa using List.all_eq_true.mp h a mem

namespace Control

open Action (noneRefers)

theorem noneRefers_recover (c : Control) (t : Token) (skipped : Option Skipped) :
    noneRefers (c.recoverActions t skipped) = true := by
  fun_cases recoverActions c t skipped <;> rfl

theorem noneRefers_openBrace (c : Control) (t : Token) :
    noneRefers (c.openBraceActions t) = true := by
  rw [openBraceActions]
  split_ifs
  · rfl
  · exact c.noneRefers_recover t _

theorem noneRefers_declaration {c after : Control} {t : Token} {body : Body}
    {actions : List Action} (declares : c.Declares t body after actions) :
    noneRefers actions = true := by
  cases declares with
  | dangling => exact c.noneRefers_recover t _
  | _ => rfl

/-- What refers to a type is named for the same goal. -/
theorem refers_work (c : Control) (comma : Bool) (t : Token) (g : Goal) :
    noneRefers (c.workActions comma t g) = true ∨
      c.workActions comma t g = [.become .typeRef, .takeName t] ∨
      c.workActions comma t g = [.begin .typeRef none, .takeName t, .close] := by
  cases g with
  | typeBody =>
    rw [workActions, Action.typeBody]
    split_ifs
    any_goals exact .inl rfl
    exact .inr (.inl rfl)
  | exceptions =>
    rw [workActions]
    split_ifs
    · exact .inr (.inr rfl)
    · exact .inl rfl
  | declaration body => exact .inl (noneRefers_declaration (c.declares t body))
  | block | enumBody => exact .inl (c.noneRefers_openBrace t)
  | item body =>
    refine .inl ?_
    cases body <;> simp only [workActions, Action.item] <;> (try split_ifs) <;> rfl
  | skip skipped any =>
    refine .inl ?_
    cases skipped <;> simp only [workActions] <;> split_ifs <;> rfl
  | _ =>
    refine .inl ?_
    simp only [workActions, Action.mark, Action.enumSymbols, Action.json, Action.separator]
    (try split_ifs) <;> rfl

/-- What refers to a type is named in the same step. -/
theorem refers_actions (c : Control) (comma : Bool) (t : Token) :
    noneRefers (c.actions comma t) = true ∨
      c.actions comma t = [.become .typeRef, .takeName t] ∨
      c.actions comma t = [.begin .typeRef none, .takeName t, .close] := by
  unfold actions
  cases c.goals with
  | nil => exact .inl rfl
  | cons g rest =>
    simp only
    split_ifs
    · exact refers_work _ comma t g
    · cases g with
      | recover skipped => exact .inl (noneRefers_recover _ t skipped)
      | _ => exact .inl rfl

end Control

namespace Machine

variable {m : Machine}

/-- All nodes that refer to types are named, but for the innermost if it is still open. -/
structure TitledBelow (m : Machine) : Prop where
  frames : ∀ f ∈ m.frames.tail, f.Titled
  elements : AllOf Element.Titled m.elements

/-- All nodes that refer to types are named. -/
structure Titled (m : Machine) : Prop where
  frames : ∀ f ∈ m.frames, f.Titled
  elements : AllOf Element.Titled m.elements

theorem Titled.below (h : m.Titled) : m.TitledBelow :=
  ⟨fun f mem => h.frames f (List.mem_of_mem_tail mem), h.elements⟩

theorem Titled.flush (h : m.Titled) (some : m.frames ≠ []) : m.flush.Titled :=
  ⟨forall_onTop h.frames fun _ _ titled => titled, by rw [elements_flush some]; exact h.elements⟩

/-- A name makes up for what the innermost node lacks. -/
theorem TitledBelow.takeName (h : m.TitledBelow) (some : m.frames ≠ []) (t : Token) :
    (m.takeName t).Titled := by
  obtain ⟨f, below, hm⟩ := List.exists_cons_of_ne_nil some
  have frames := h.frames
  rw [hm] at frames
  constructor
  · simp only [Machine.takeName, Machine.take, Machine.flush, Machine.onTop, hm]
    intro g mem
    rcases List.mem_cons.mp mem with rfl | mem
    · exact fun _ => rfl
    · exact frames g mem
  · rw [elements_takeName some]
    exact allOf_leaf h.elements t

theorem Titled.close (h : m.Titled) (inner : m.frames.tail ≠ []) : m.close.Titled := by
  obtain ⟨f, g, below, hm, closed⟩ := close_frames inner
  have frames := h.frames
  rw [hm] at frames
  constructor
  · rw [closed]
    intro k mem
    rcases List.mem_cons.mp mem with rfl | mem
    · exact frames g (by simp)
    · exact frames k (.tail _ (.tail _ mem))
  · exact allOf_close hm h.elements (frames f List.mem_cons_self)

theorem Titled.begin (h : m.Titled) (some : m.frames ≠ []) (kind : NodeKind)
    (error : Option SyntaxError) : (m.begin kind error).TitledBelow := by
  constructor
  · rw [frames_begin]
    exact (h.flush some).frames
  · rw [elements_begin some]
    exact h.elements

theorem Titled.act (h : m.Titled) {a : Action} (enabled : a.Enabled m) (other : a.refers = false) :
    (m.act a).Titled := by
  have outer (inner : m.frames.tail ≠ []) : m.frames ≠ [] := fun none => inner (by rw [none]; rfl)
  cases a with
  | begin kind error =>
    obtain ⟨frames, elements⟩ := h.begin enabled kind error
    refine ⟨?_, elements⟩
    intro f mem
    rw [Machine.act, frames_begin] at mem
    rcases List.mem_cons.mp mem with rfl | mem
    · intro refers
      exact absurd refers (by simpa [Action.refers] using other)
    · exact frames f (by rwa [frames_begin])
  | become kind =>
    refine ⟨forall_onTop h.frames fun f _ _ refers => ?_, ?_⟩
    · exact absurd refers (by simpa [Action.refers] using other)
    · have same : (m.become kind).elements = m.elements := elements_onTop fun _ => rfl
      rw [Machine.act, same]
      exact h.elements
  | becomeError error =>
    refine ⟨forall_onTop h.frames fun f _ _ refers => ?_, ?_⟩
    · contradiction
    · have same : (m.becomeError error).elements = m.elements := elements_onTop fun _ => rfl
      rw [Machine.act, same]
      exact h.elements
  | wrapLast kind =>
    obtain ⟨_, f, top, l, children, others, hc, _⟩ := enabled
    obtain ⟨below, hm⟩ : ∃ below, m.frames = f :: below := List.head?_eq_some_iff.mp top
    have frames := h.frames
    rw [hm] at frames
    constructor
    · simp only [Machine.act, Machine.wrapLast, hm, hc]
      intro g mem
      rcases List.mem_cons.mp mem with rfl | mem
      · intro refers
        exact absurd refers (by simpa [Action.refers] using other)
      · rcases List.mem_cons.mp mem with rfl | mem
        · exact frames f List.mem_cons_self
        · exact frames g (.tail _ mem)
    · rw [Machine.act, elements_wrapLast hm (by simp [hc])]
      exact h.elements
  | take t =>
    constructor
    · exact forall_onTop (h.flush (outer enabled)).frames fun _ _ titled => titled
    · rw [Machine.act, elements_take (outer enabled)]
      exact allOf_leaf h.elements t
  | takeName t => exact h.below.takeName (outer enabled.1) t
  | close => exact h.close enabled

theorem Titled.perform (h : m.Titled) {actions : List Action} (performs : m.Performs actions)
    (others : ∀ a ∈ actions, a.refers = false) : (m.perform actions).Titled := by
  induction actions generalizing m with
  | nil => exact h
  | cons a rest ih =>
    refine ih (h.act performs.1 (others a List.mem_cons_self)) performs.2 ?_
    exact fun b mem => others b (.tail _ mem)

theorem Titled.step {origin : Origin} {base : Body} (h : m.Titled) (aligned : m.Aligned origin base)
    (t : Token) : (m.step t).Titled := by
  have performs := aligned.performs t
  have performed : (m.perform (m.control.actions m.afterComma t)).Titled := by
    rcases m.control.refers_actions m.afterComma t with others | eq | eq
    · exact h.perform performs fun _ => Action.refers_of_mem others
    · rw [eq] at performs ⊢
      obtain ⟨⟨_, inner, _⟩, _⟩ := performs
      have some : m.frames ≠ [] := fun none => inner (by rw [none]; rfl)
      have same : (m.become .typeRef).elements = m.elements := elements_onTop fun _ => rfl
      have become : (m.become .typeRef).TitledBelow :=
        ⟨by rw [tail_become]; exact h.below.frames, by rw [same]; exact h.elements⟩
      exact become.takeName (by simpa using some) t
    · rw [eq] at performs ⊢
      obtain ⟨some, _, ends, _⟩ := performs
      exact ((h.begin some .typeRef none).takeName (by simp) t).close ends
  rw [step_eq]
  exact ⟨performed.frames, performed.elements⟩

theorem Titled.receive (h : m.Titled) (l : Lexeme) : (m.receive l).Titled := by
  constructor
  · rw [frames_receive]
    exact h.frames
  · exact allOf_receive h.elements (fun _ _ _ _ refers => absurd refers (by simp [Arena.nextLabel])) l

/-! ## Every step -/

/-- What the parser keeps about the nodes that it makes: where they stand, and how they are named. -/
structure Built (base : Body) (m : Machine) : Prop where
  aligned : m.Aligned .any base
  suited : Suited m.goals m.kinds
  sited : m.Sited
  titled : m.Titled
  named : m.Named

/-- What a step does fits the open nodes. -/
theorem Built.fits {base : Body} (h : m.Built base) (t : Token) :
    Control.Fits m.kinds (m.control.actions m.afterComma t) (m.control.step m.afterComma t).goals := by
  obtain ⟨⟨nested, _, _⟩, suited, _⟩ := h
  obtain ⟨arena, generation, frames, pending, goals, ok, taken, blocks⟩ := m
  cases goals with
  | nil => exact ⟨trivial, trivial⟩
  | cons g rest =>
    cases ok with
    | false => exact Control.fits_unwind (c := ⟨rest, false, taken, blocks⟩) t suited
    | true =>
      refine Control.fits_work (c := ⟨rest, true, taken, blocks⟩) _ t suited ?_
      obtain ⟨f, below, rfl⟩ := List.exists_cons_of_ne_nil nested.frames_ne
      rintro (rfl | ⟨body, rfl⟩)
      · exact nested.1.2.2
      · obtain ⟨rest', ends, -⟩ := nested.1.2.2
        exact ⟨rest', ends⟩

theorem Built.step {base : Body} (h : m.Built base) (t : Token) : (m.step t).Built base := by
  obtain ⟨stand, suited⟩ := h.fits t
  obtain ⟨sited, kinds⟩ := h.sited.perform (h.aligned.performs t) stand
  refine ⟨h.aligned.step t fun _ _ _ => trivial, ?_, ?_, h.titled.step h.aligned t,
    h.named.step h.aligned t⟩
  · rw [step_eq]
    rw [← kinds] at suited
    exact suited
  · rw [step_eq]
    exact ⟨sited.nested, sited.frames, sited.pending, sited.elements⟩

theorem Built.receive {base : Body} (h : m.Built base) (l : Lexeme) : (m.receive l).Built base := by
  refine ⟨h.aligned.receive l, ?_, h.sited.receive l, h.titled.receive l, h.named.receive l⟩
  rw [goals_receive, kinds, frames_receive]
  exact h.suited

/-- The parser before its first lexeme has built nothing. -/
theorem built_start {base : Body} {goals : List Goal} (task : Goal.Task base goals) (arena : Arena)
    (generation : UInt64) (blocks : Nat) : (start arena generation blocks goals).Built base := by
  have only {P : Frame → Prop} (h : P { kind := .document }) :
      ∀ f ∈ (start arena generation blocks goals).frames, P f := by
    intro f mem
    exact List.mem_singleton.mp mem ▸ h
  refine ⟨aligned_start task .., ?_, ⟨.singleton _, ?_, ?_, trivial⟩, ⟨?_, trivial⟩, ⟨?_, trivial⟩⟩
  · cases task with
    | document => exact ⟨⟨_, rfl, rfl⟩, trivial, trivial⟩
    | statement => exact ⟨⟨_, rfl, by cases base <;> rfl⟩, trivial⟩
  · exact only fun l inside mem => by contradiction
  · intro e mem
    contradiction
  · exact only fun refers => by contradiction
  · exact only fun i name => by contradiction

end Machine

/-- However far a text is read, what is built keeps its order. -/
theorem Reading.built_of_reaches {base : Body} {goals : List Goal} (task : Goal.Task base goals)
    (arena : Arena) (generation : UInt64) (blocks : Nat) (text : Bytes) {r : Reading}
    (way : Reaches (.ofText (Machine.start arena generation blocks goals) text) r) :
    r.machine.Built base := by
  refine way.invariant (fun _ t h => h.step t) (fun _ l h => h.receive l) ?_
  have start := Machine.built_start task arena generation blocks
  obtain ⟨l, rest, hl, -⟩ := lexemes_eq_cons text
  unfold Reading.ofText
  rw [hl]
  exact start.receive l

end AvroIdl
