import AvroIdl.Proofs.Parser.Actions
import AvroIdl.Proofs.Parser.Reading
import AvroIdl.Tree.Reparse

/-!
# Goals and open nodes

Every open node but the outermost is ended by a goal. So the goals of the parser fall into levels,
one for each open node, and each goal stands in a node of a kind that fits it. Statements stand in
nodes that have a body, and all nodes around them have one as well.

* `Nested` says this of goals and open nodes. It can carry a further property of the places where
  statements begin, which then holds for every open node that is a statement;
* `Machine.Aligned.step`: every step keeps goals and open nodes in line;
* `Machine.Aligned.performs`: what a step does to the tree can be done. There is a node to end
  whenever one is ended, and only a node whose kind is open gets a kind.
-/

namespace AvroIdl

/-- Whether a kind is that of a part of a statement, and not of a statement or a document. -/
def NodeKind.isPart (k : NodeKind) : Bool := !k.standsAlone && k.body?.isNone

/-- Whether a token can name a node of this kind. Imports and the members of JSON objects are named by
strings. -/
def NodeKind.canBeNamed (k : NodeKind) (t : Token) : Bool :=
  t.isName || ((k = .importStmt || k = .jsonMember) && t.kind = .stringLit)

theorem NodeKind.canBeNamed_of_isName {k : NodeKind} {t : Token} (name : t.isName = true) :
    k.canBeNamed t = true := by
  simp [canBeNamed, name]

/-- The open node of kind `kind` is a place for statements, after which the goals `rest` remain.
Statements stand in `base` in the outermost node. -/
structure Site (base body : Body) (rest : List Goal) (kind : NodeKind) (below : List Frame) :
    Prop where
  outermost : below = [] → kind = .document ∧ body = base
  inner : below ≠ [] → kind.body? = some body
  bodies : ∀ f ∈ below, f.kind.body?.isSome
  leaves : rest.count .leaveBlock = (kind :: below.map Frame.kind).countP NodeKind.hasBlock

/-- A property of the places where statements begin: the body they stand in, the goals that remain
after the statement, and the open nodes around it. -/
abbrev Origin := Body → List Goal → List Frame → Prop

/-- Every goal about a question mark after a type stands behind the end of the type, where `ended`
says whether an end comes before the goals. -/
def Goal.Tucked (ended : Bool) : List Goal → Prop
  | [] => True
  | g :: rest => (g = .nullable → ended = true) ∧ Goal.Tucked (g = .close) rest

section

variable (origin : Origin) (base : Body)

/-- A statement has begun in the innermost of the open nodes `below`. -/
def Begun (body : Body) (rest : List Goal) (below : List Frame) : Prop :=
  origin body rest below ∧ rest.head? ≠ some .nullable ∧
    ∃ f fs, below = f :: fs ∧ Site base body rest f.kind fs

/-- What has to hold of the open node that a goal is about, and of those around it. -/
def Goal.Fits (rest : List Goal) (kind : NodeKind) (below : List Frame) : Goal → Prop
  | .items body | .moreItems body _ | .item body => Site base body rest kind below
  | .leftovers => below = []
  | .close =>
    (kind.standsAlone → ∃ body, Begun origin base body rest below) ∧
      (rest.head? = some .nullable → kind.isPart)
  | .declaration body =>
    below ≠ [] ∧ kind = .invalid ∧
      ∃ rest', rest = .close :: rest' ∧ Begun origin base body rest' below
  | .typeBody => below ≠ [] ∧ kind = .invalid ∧ ∃ rest', rest = .close :: rest'
  | .importKind | .importPath => below ≠ [] ∧ kind = .importStmt
  | .block body =>
    below ≠ [] ∧ kind.body? = some body ∧ kind.hasBlock ∧ (∀ f ∈ below, f.kind.body?.isSome) ∧
      rest.count .leaveBlock = (below.map Frame.kind).countP NodeKind.hasBlock
  | _ => below ≠ []

/-- The goals fall into levels, one for each of the open nodes. -/
def Nested : List Goal → List Frame → Prop
  | _, [] => False
  | [], f :: below => f.kind = .document ∧ below = []
  | .close :: rest, f :: below => Goal.close.Fits origin base rest f.kind below ∧ Nested rest below
  | g :: rest, f :: below => g.Fits origin base rest f.kind below ∧ Nested rest (f :: below)

end

namespace Machine

@[simp] theorem tail_onTop (m : Machine) (change : Frame → Frame) :
    (m.onTop change).frames.tail = m.frames.tail := by
  unfold onTop
  split
  · rfl
  next h => rw [h, List.tail_cons, List.tail_cons]

@[simp] theorem frames_onTop_eq_nil (m : Machine) (change : Frame → Frame) :
    (m.onTop change).frames = [] ↔ m.frames = [] := by
  unfold onTop
  split
  · rfl
  next h => simp [h]

@[simp] theorem tail_flush (m : Machine) : m.flush.frames.tail = m.frames.tail := m.tail_onTop _

@[simp] theorem frames_flush_eq_nil (m : Machine) : m.flush.frames = [] ↔ m.frames = [] :=
  m.frames_onTop_eq_nil _

@[simp] theorem frames_begin (m : Machine) (kind : NodeKind) (error : Option SyntaxError) :
    (m.begin kind error).frames = { kind, error } :: m.flush.frames := by
  simp only [begin]

@[simp] theorem tail_take (m : Machine) (t : Token) : (m.take t).frames.tail = m.frames.tail :=
  (m.flush.tail_onTop _).trans m.tail_flush

@[simp] theorem tail_takeName (m : Machine) (t : Token) :
    (m.takeName t).frames.tail = m.frames.tail :=
  (tail_take _ t).trans ((m.flush.tail_onTop _).trans m.tail_flush)

@[simp] theorem tail_become (m : Machine) (kind : NodeKind) :
    (m.become kind).frames.tail = m.frames.tail := m.tail_onTop _

@[simp] theorem tail_becomeError (m : Machine) (error : Option SyntaxError) :
    (m.becomeError error).frames.tail = m.frames.tail := m.tail_onTop _

@[simp] theorem frames_become_eq_nil (m : Machine) (kind : NodeKind) :
    (m.become kind).frames = [] ↔ m.frames = [] := m.frames_onTop_eq_nil _

@[simp] theorem frames_becomeError_eq_nil (m : Machine) (error : Option SyntaxError) :
    (m.becomeError error).frames = [] ↔ m.frames = [] := m.frames_onTop_eq_nil _

@[simp] theorem frames_close_eq_nil (m : Machine) : m.close.frames = [] ↔ m.frames = [] := by
  unfold close
  split
  next h => simp [h]
  · rfl

/-- The node that the innermost open node becomes when it is ended. -/
def ended (m : Machine) (f : Frame) : Element :=
  .node (m.arena.nextLabel m.generation f.kind f.name f.error f.children.reverse)
    f.children.reverse

theorem close_frames {m : Machine} (some : m.frames.tail ≠ []) :
    ∃ f g below, m.frames = f :: g :: below ∧
      m.close.frames = { g with children := m.ended f :: g.children } :: below := by
  cases h : m.frames with
  | nil => simp [h] at some
  | cons f fs =>
    cases fs with
    | nil => simp [h] at some
    | cons g below => exact ⟨f, g, below, rfl, by simp [close, ended, h]⟩

end Machine

namespace Action

/-- What has to be there for an action to do what it is meant to. Nothing but beginning a node is
done to the outermost node, and only a node that has no kind yet gets one. -/
def Enabled (m : Machine) : Action → Prop
  | .begin _ _ => m.frames ≠ []
  | .become kind =>
    kind ≠ .error ∧ m.frames.tail ≠ [] ∧ ∀ f ∈ m.frames.head?, f.kind = .invalid
  | .becomeError _ => m.frames.tail ≠ [] ∧ ∀ f ∈ m.frames.head?, f.kind = .invalid
  | .wrapLast _ =>
    m.frames.tail ≠ [] ∧ ∃ f ∈ m.frames.head?, ∃ l children others,
      f.children = .node l children :: others ∧ l.kind.isPart
  | .takeName t => m.frames.tail ≠ [] ∧ ∀ f ∈ m.frames.head?, f.kind.canBeNamed t = true
  | .take _ | .close => m.frames.tail ≠ []

end Action

/-- All actions of a list can be performed, one after the other. -/
def Machine.Performs (m : Machine) : List Action → Prop
  | [] => True
  | a :: rest => a.Enabled m ∧ (m.act a).Performs rest

section

variable {origin : Origin} {base : Body}

theorem Site.cons {body : Body} {rest : List Goal} {kind : NodeKind} {below : List Frame}
    (h : Site base body rest kind below) {g : Goal} (hg : g ≠ .leaveBlock) :
    Site base body (g :: rest) kind below :=
  { h with leaves := by rw [List.count_cons_of_ne hg, h.leaves] }

/-- Statements in braces are a place for statements. -/
theorem Site.of_block {body : Body} {rest : List Goal} {kind : NodeKind} {below : List Frame}
    (h : (Goal.block body).Fits origin base rest kind below) :
    Site base body (.leaveBlock :: .mark .closeCurl :: .recover none :: rest) kind below := by
  obtain ⟨some, hbody, hblock, bodies, leaves⟩ := h
  refine ⟨fun none => absurd none some, fun _ => hbody, bodies, ?_⟩
  simp [hblock, leaves]

/-- The nodes around a statement have a body. -/
theorem Begun.bodies {body : Body} {rest : List Goal} {below : List Frame}
    (h : Begun origin base body rest below) : ∀ f ∈ below, f.kind.body?.isSome := by
  obtain ⟨_, _, f, fs, rfl, site⟩ := h
  rintro g (_ | ⟨_, hg⟩)
  · by_cases outermost : fs = []
    · simp [(site.outermost outermost).1, NodeKind.body?]
    · simp [site.inner outermost]
  · exact site.bodies g hg

/-- A statement that has begun can have a body. -/
theorem Begun.block {body inside : Body} {rest : List Goal} {below : List Frame} {kind : NodeKind}
    (h : Begun origin base body rest below) (hbody : kind.body? = some inside)
    (hblock : kind.hasBlock) :
    (Goal.block inside).Fits origin base (.close :: rest) kind below := by
  have bodies := h.bodies
  obtain ⟨_, _, f, fs, rfl, site⟩ := h
  exact ⟨by simp, hbody, hblock, bodies, by simpa using site.leaves⟩

/-- Of the innermost open node only the kind matters. -/
theorem nested_top {goals : List Goal} {f f' : Frame} {below : List Frame}
    (same : f.kind = f'.kind) :
    Nested origin base goals (f :: below) ↔ Nested origin base goals (f' :: below) := by
  induction goals with
  | nil => simp [Nested, same]
  | cons g rest ih => cases g <;> simp [Nested, same, ih]

theorem nested_onTop {goals : List Goal} {m : Machine} {change : Frame → Frame}
    (same : ∀ f, (change f).kind = f.kind) :
    Nested origin base goals (m.onTop change).frames ↔ Nested origin base goals m.frames := by
  unfold Machine.onTop
  split
  · rfl
  next f below h => rw [h]; exact nested_top (same f)

@[simp] theorem nested_flush {goals : List Goal} {m : Machine} :
    Nested origin base goals m.flush.frames ↔ Nested origin base goals m.frames :=
  nested_onTop fun _ => rfl

@[simp] theorem nested_take {goals : List Goal} {m : Machine} {t : Token} :
    Nested origin base goals (m.take t).frames ↔ Nested origin base goals m.frames := by
  rw [← nested_flush (m := m)]
  exact nested_onTop fun _ => rfl

@[simp] theorem nested_takeName {goals : List Goal} {m : Machine} {t : Token} :
    Nested origin base goals (m.takeName t).frames ↔ Nested origin base goals m.frames := by
  rw [Machine.takeName, nested_take, ← nested_flush (m := m)]
  exact nested_onTop fun _ => rfl

theorem nested_become {goals : List Goal} {m : Machine} {kind : NodeKind} (some : m.frames ≠ []) :
    Nested origin base goals (m.become kind).frames ↔
      Nested origin base goals ({ kind } :: m.frames.tail) := by
  unfold Machine.become Machine.onTop
  cases h : m.frames with
  | nil => exact absurd h some
  | cons => exact nested_top rfl

theorem nested_becomeError {goals : List Goal} {m : Machine} {error : Option SyntaxError}
    (some : m.frames ≠ []) :
    Nested origin base goals (m.becomeError error).frames ↔
      Nested origin base goals ({ kind := .error } :: m.frames.tail) := by
  unfold Machine.becomeError Machine.onTop
  cases h : m.frames with
  | nil => exact absurd h some
  | cons => exact nested_top rfl

theorem nested_close {goals : List Goal} {m : Machine} (some : m.frames.tail ≠ []) :
    Nested origin base goals m.close.frames ↔ Nested origin base goals m.frames.tail := by
  obtain ⟨f, g, below, before, after⟩ := Machine.close_frames some
  rw [before, after]
  exact nested_top rfl

theorem nested_recover {c : Control} {m : Machine} (t : Token) (skipped : Option Skipped)
    (some : m.frames ≠ []) (h : Nested origin base c.goals m.frames) :
    Nested origin base (c.recover t skipped).goals
      (m.perform (c.recoverActions t skipped)).frames := by
  rcases skipped with _ | _ | _
  · exact h
  all_goals
    simp only [Control.recover, Control.recoverActions]
    split_ifs
    · exact h
    · simpa [Machine.act, Machine.begin, Control.push, Nested, Goal.Fits, some, NodeKind.isPart,
        NodeKind.standsAlone, NodeKind.body?] using h

theorem nested_declaration {c after : Control} {m : Machine} {f : Frame} {below : List Frame}
    (hm : m.frames = f :: below) {t : Token} {body : Body} {actions : List Action}
    (declares : c.Declares t body after actions)
    (h : Nested origin base (.declaration body :: c.goals) (f :: below)) :
    Nested origin base after.goals (m.perform actions).frames := by
  obtain ⟨⟨inner, _, rest', hrest, begun⟩, rest⟩ := h
  have closes (kind : NodeKind) : Nested origin base c.goals ({ kind } :: below) := by
    rw [hrest] at rest ⊢
    exact ⟨⟨fun _ => ⟨body, begun⟩, fun null => absurd null begun.2.1⟩, rest.2⟩
  have block {kind : NodeKind} {inside : Body} (hbody : kind.body? = some inside)
      (hblock : kind.hasBlock) :
      Nested origin base (.block inside :: c.goals) ({ kind } :: below) :=
    ⟨hrest ▸ begun.block hbody hblock, closes kind⟩
  cases declares with
  | protocol | record | error =>
    simpa [Machine.act, Control.push, Control.count, nested_become, hm] using
      ⟨inner, inner, block rfl rfl⟩
  | enum =>
    simpa [Machine.act, Control.push, Control.count, nested_become, hm] using
      ⟨inner, inner, inner, closes _⟩
  | fixed =>
    simp [Machine.act, Control.push, Control.count, nested_become, hm, Nested, Goal.Fits, inner,
      closes]
  | void =>
    simp [Machine.act, Control.push, Control.count, nested_become, nested_close, hm, Nested,
      Goal.Fits, Machine.messageRest, inner, closes]
  | message =>
    simp [Machine.act, Control.push, nested_become, hm, Nested, Goal.Fits, Machine.messageRest,
      inner, closes]
  | dangling =>
    simp only [Action.report, List.cons_append, Machine.perform_cons, List.nil_append, Machine.act]
    exact nested_recover t _ (by simp) (by simp [nested_close, nested_becomeError, hm, closes])

theorem nested_typeBody {c : Control} {m : Machine} {f : Frame} {below : List Frame}
    (hm : m.frames = f :: below) (t : Token)
    (h : Nested origin base (.typeBody :: c.goals) (f :: below)) :
    Nested origin base (c.typeBody t).goals (m.perform (Action.typeBody t)).frames := by
  obtain ⟨⟨inner, _, rest', hrest⟩, rest⟩ := h
  have closes {kind : NodeKind} (part : kind.isPart) :
      Nested origin base c.goals ({ kind } :: below) := by
    rw [hrest] at rest ⊢
    refine ⟨⟨fun alone => ?_, fun _ => part⟩, rest.2⟩
    simp [NodeKind.isPart, alone] at part
  simp only [Control.typeBody, Action.typeBody]
  split_ifs <;>
    simp [Machine.act, Control.push, Control.count, Control.fail, nested_become, nested_becomeError,
      hm, Nested, Goal.Fits, inner, closes, NodeKind.isPart, NodeKind.standsAlone, NodeKind.body?]

theorem nested_openBrace {c : Control} {m : Machine} {f : Frame} {below : List Frame}
    (hm : m.frames = f :: below) (t : Token) {inside : List Goal}
    (rest : Nested origin base c.goals m.frames)
    (h : Nested origin base (inside ++ c.goals) m.frames) :
    Nested origin base (c.openBrace t inside).goals
      (m.perform (c.openBraceActions t)).frames := by
  simp only [Control.openBrace, Control.openBraceActions]
  split_ifs
  · simpa [Machine.act, Control.push, Control.count] using h
  · simp only [Action.expected, Action.report, List.cons_append, Machine.perform_cons,
      List.nil_append, Machine.act]
    exact nested_recover t _ (by simp) (by simpa [nested_close, hm] using rest)

theorem nested_work {c : Control} {m : Machine} {f : Frame} {below : List Frame} {g : Goal}
    (hm : m.frames = f :: below) (comma : Bool) (t : Token)
    (h : Nested origin base (g :: c.goals) (f :: below))
    (tucked : g ≠ .close → c.goals.head? ≠ some .nullable)
    (ready : g = .nullable → f.children ≠ [])
    (begins : ∀ body, g = .item body → origin body c.goals m.flush.frames) :
    Nested origin base (c.work comma t g).goals (m.perform (c.workActions comma t g)).frames := by
  cases g with
  | items body =>
    simp only [Control.work, Control.workActions]
    split_ifs
    · simpa [hm] using h.2
    · simpa [hm, Nested, Goal.Fits, Control.push] using ⟨h.1.cons (by simp), h.1, h.2⟩
  | moreItems body before =>
    simp only [Control.work, Control.workActions]
    split_ifs
    · simpa [hm, Nested, Goal.Fits, Control.push] using h
    · simpa [hm] using h.2
  | item body =>
    have begun : Begun origin base body c.goals m.flush.frames :=
      ⟨begins body rfl, tucked (by simp), { f with children := m.pending.reverse ++ f.children },
        below, by simp [Machine.flush, Machine.onTop, hm], h.1⟩
    have here : ∃ body, Begun origin base body c.goals m.flush.frames := ⟨body, begun⟩
    have rest := h.2
    cases body <;> simp only [Control.work, Control.workActions, Control.item, Action.item,
        Control.importRest] <;> (try split_ifs) <;>
      simp [Nested, Goal.Fits, Control.push, Control.count, Machine.act, hm, rest, here, begun,
        begun.2.1]
  | declaration body => exact nested_declaration hm (c.declares t body) h
  | typeBody => exact nested_typeBody hm t h
  | enumBody =>
    obtain ⟨inner, rest⟩ := h
    exact nested_openBrace hm t (hm ▸ rest) (by rw [hm]; exact ⟨inner, inner, inner, inner, rest⟩)
  | block body =>
    obtain ⟨fits, rest⟩ := h
    have inside : Nested origin base
        ([Goal.items body, .leaveBlock, .mark .closeCurl, .recover none] ++ c.goals) m.frames := by
      rw [hm]
      exact ⟨.of_block fits, fits.1, fits.1, fits.1, rest⟩
    simp only [Control.work, Control.workActions]
    split_ifs with curl
    · simpa [Control.openBrace, Control.openBraceActions, curl, Machine.act, Control.push,
        Control.count] using inside
    · exact nested_openBrace hm t (hm ▸ rest) inside
  | group skipped closers =>
    obtain ⟨inner, rest⟩ := h
    replace inner : below ≠ [] := inner
    simp only [Control.work, Control.workActions, Control.group]
    cases closer : t.closer? <;> cases closers.tail <;> dsimp only <;> split_ifs <;>
      simp [Machine.act, Control.push, Control.count, hm, rest, Nested, Goal.Fits, inner]
  | skip skipped any =>
    obtain ⟨inner, rest⟩ := h
    replace inner : below ≠ [] := inner
    cases skipped <;> simp only [Control.work, Control.workActions, Control.skipOne] <;>
      split_ifs <;> (try split) <;>
      simp [Machine.act, Control.push, Control.count, hm, rest, Nested, Goal.Fits, inner]
  | close =>
    have inner : m.frames.tail ≠ [] := by
      rintro none
      rw [hm] at none
      obtain rfl : below = [] := none
      simpa [Nested] using h.2
    simpa [Control.work, Control.workActions, Machine.act, nested_close inner, hm] using h.2
  | leaveBlock | recover => simpa [Control.work, Control.workActions, hm] using h.2
  | nullable =>
    obtain ⟨inner, rest⟩ := h
    obtain ⟨last, others, hc⟩ := List.exists_cons_of_ne_nil (ready rfl)
    simp only [Control.work, Control.workActions]
    split_ifs
    · simp only [Machine.perform_cons, Machine.perform_nil, Machine.act, Machine.wrapLast,
        Machine.take, Machine.flush, Machine.onTop, Machine.close, Control.count, hm, hc]
      refine (nested_top ?_).mp rest
      rfl
    · simpa [hm] using rest
  | leftovers =>
    obtain ⟨outer, rest⟩ := h
    obtain rfl : below = [] := outer
    simp only [Control.work, Control.workActions]
    split_ifs <;>
      simp [Machine.act, Control.push, Control.count, hm, rest, Nested, Goal.Fits, nested_close]
  | importKind | importPath =>
    have rest := h.2
    simp only [Control.work, Control.workActions]
    split_ifs <;>
      simp [Machine.act, Control.count, Control.fail, Action.expected, Action.report, hm, rest,
        nested_close]
  | _ =>
    obtain ⟨inner, rest⟩ := h
    replace inner : below ≠ [] := inner
    simp only [Control.work, Control.workActions, Action.mark, Action.enumSymbols, Action.json,
      Action.separator]
    (try split_ifs) <;>
      simp [Nested, Goal.Fits, Control.push, Control.count, Control.fail, Machine.act,
        Action.expected, Action.report, hm, rest, inner, nested_close, NodeKind.isPart,
        NodeKind.standsAlone, NodeKind.body?]

/-! ## What is done to the tree can be done -/

theorem performs_append {m : Machine} {as bs : List Action} :
    m.Performs (as ++ bs) ↔ m.Performs as ∧ (m.perform as).Performs bs := by
  induction as generalizing m with
  | nil => simp [Machine.Performs]
  | cons a rest ih => simp [Machine.Performs, ih, and_assoc]

theorem performs_recover {c : Control} {m : Machine} (t : Token) (skipped : Option Skipped)
    (some : m.frames ≠ []) : m.Performs (c.recoverActions t skipped) := by
  rcases skipped with _ | _ | _
  · trivial
  all_goals
    simp only [Control.recoverActions]
    split_ifs
    · trivial
    · exact ⟨some, trivial⟩

theorem performs_report {m : Machine} {e : SyntaxError} (some : m.frames ≠ []) :
    m.Performs (Action.report e) := by
  simp [Action.report, Machine.Performs, Action.Enabled, Machine.act, some]

theorem performs_openBrace {c : Control} {m : Machine} (t : Token) (inner : m.frames.tail ≠ []) :
    m.Performs (c.openBraceActions t) := by
  have some : m.frames ≠ [] := fun none => inner (by rw [none]; rfl)
  simp only [Control.openBraceActions, Action.expected]
  split_ifs
  · exact ⟨inner, trivial⟩
  · exact performs_append.mpr ⟨performs_report some, performs_recover t _ (by
      simp [Action.report, Machine.act])⟩

theorem performs_declaration {c after : Control} {m : Machine} {f : Frame} {below : List Frame}
    (hm : m.frames = f :: below) (inner : below ≠ []) (invalid : f.kind = .invalid) {t : Token}
    {body : Body} {actions : List Action} (declares : c.Declares t body after actions) :
    m.Performs actions := by
  cases declares with
  | dangling =>
    refine ⟨by simp [Action.Enabled, hm, inner, invalid], performs_append.mpr ⟨?_, ?_⟩⟩
    · exact performs_report (by simp [Machine.act, hm])
    · exact performs_recover t _ (by simp [Action.report, Machine.act])
  | _ => simp [Machine.Performs, Action.Enabled, Machine.act, hm, inner, invalid]

theorem performs_work {c : Control} {m : Machine} {f : Frame} {below : List Frame} {g : Goal}
    (hm : m.frames = f :: below) (comma : Bool) (t : Token)
    (h : Nested origin base (g :: c.goals) (f :: below))
    (ready : g = .nullable → ∃ l children others,
      f.children = .node l children :: others ∧ l.kind.isPart) :
    m.Performs (c.workActions comma t g) := by
  cases g with
  | items | moreItems => trivial
  | item body =>
    cases body <;> simp only [Control.workActions, Action.item] <;> (try split_ifs) <;>
      simp [Machine.Performs, Action.Enabled, Machine.act, hm]
  | leftovers =>
    simp only [Control.workActions]
    split_ifs <;> simp [Machine.Performs, Action.Enabled, Machine.act, hm]
  | close =>
    have inner : below ≠ [] := by
      rintro rfl
      simpa [Nested] using h.2
    simp [Control.workActions, Machine.Performs, Action.Enabled, hm, inner]
  | declaration body =>
    obtain ⟨inner, invalid, _⟩ := h.1
    exact performs_declaration hm inner invalid (c.declares t body)
  | typeBody =>
    obtain ⟨inner, invalid, _⟩ := h.1
    simp only [Control.workActions, Action.typeBody]
    split_ifs with _ _ _ _ named
    rotate_left 4
    · have name : t.isName = true := by
        simp only [Bool.or_eq_true, decide_eq_true_eq, Token.is, Bool.and_eq_true] at named
        rcases named with ident | ⟨keyword, _⟩ <;> simp [Token.isName, *]
      simp [Machine.Performs, Action.Enabled, Machine.act, hm, inner, invalid,
        NodeKind.canBeNamed_of_isName name]
    all_goals simp [Machine.Performs, Action.Enabled, Machine.act, hm, inner, invalid]
  | enumBody =>
    have inner : below ≠ [] := h.1
    exact performs_openBrace t (by simpa [hm] using inner)
  | block body =>
    have inner : below ≠ [] := h.1.1
    exact performs_openBrace t (by simpa [hm] using inner)
  | nullable =>
    have inner : below ≠ [] := h.1
    simp only [Control.workActions]
    split_ifs
    · simp only [Machine.Performs, Action.Enabled, Machine.act]
      obtain ⟨l, children, others, hc, part⟩ := ready rfl
      simp [hm, inner, hc, part, Machine.wrapLast]
    · trivial
  | skip skipped any =>
    have inner : below ≠ [] := h.1
    cases skipped <;> simp only [Control.workActions] <;> split_ifs <;>
      simp [Machine.Performs, Action.Enabled, hm, inner]
  | importKind | importPath =>
    obtain ⟨inner, stmt⟩ := h.1
    simp only [Control.workActions, Action.expected]
    split_ifs <;> simp [Machine.Performs, Action.Enabled, performs_report, NodeKind.canBeNamed, *]
  | exceptions =>
    simp only [Control.workActions, Action.expected]
    split_ifs with ident
    · have name : t.isName = true := by simp [Token.isName, ident]
      simp [Machine.Performs, Action.Enabled, Machine.act, hm, NodeKind.canBeNamed_of_isName name]
    · exact performs_report (by simp [hm])
  | name | enumSymbols | members =>
    have inner : below ≠ [] := h.1
    simp only [Control.workActions, Action.enumSymbols, Action.expected]
    split_ifs <;>
      simp [Machine.Performs, Action.Enabled, Machine.act, performs_report, NodeKind.canBeNamed, *]
  | _ =>
    have inner : below ≠ [] := h.1
    simp only [Control.workActions, Action.mark, Action.json, Action.separator, Action.expected]
    (try split_ifs) <;>
      simp [Machine.Performs, Action.Enabled, Machine.act, performs_report, hm, inner]

/-! ## Every step keeps goals and open nodes in line -/

theorem Goal.Tucked.of_false {ended : Bool} {goals : List Goal} (h : Goal.Tucked false goals) :
    Goal.Tucked ended goals := by
  cases goals with
  | nil => trivial
  | cons g rest => exact ⟨fun null => absurd (h.1 null) (by simp), h.2⟩

theorem Goal.Tucked.head?_ne {goals : List Goal} (h : Goal.Tucked false goals) :
    goals.head? ≠ some .nullable := by
  cases goals with
  | nil => simp
  | cons g rest => simpa using fun null => h.1 null

theorem tucked_recover {c : Control} (t : Token) (skipped : Option Skipped)
    (h : Goal.Tucked false c.goals) : Goal.Tucked false (c.recover t skipped).goals := by
  have ended : Goal.Tucked true c.goals := h.of_false
  fun_cases Control.recover c t skipped <;> simp [Control.push, Goal.Tucked, h, ended]

theorem tucked_work {c : Control} (comma : Bool) (t : Token) {g : Goal} (hg : g ≠ .close)
    (h : Goal.Tucked false c.goals) : Goal.Tucked false (c.work comma t g).goals := by
  have ended : Goal.Tucked true c.goals := h.of_false
  cases g with
  | close => exact absurd rfl hg
  | item body =>
    simp only [Control.work]
    fun_cases Control.item c t body <;>
      simp [Control.push, Control.count, Control.importRest, Goal.Tucked, ended]
  | declaration body =>
    simp only [Control.work]
    fun_cases Control.declaration c t body
    case case8 => exact tucked_recover t _ h
    all_goals simp [Control.push, Control.count, Machine.messageRest, Goal.Tucked, h]
  | block body =>
    simp only [Control.work, Control.openBrace]
    split_ifs
    · simp [Control.push, Control.count, Goal.Tucked, h]
    · exact tucked_recover t _ h
  | enumBody =>
    simp only [Control.work, Control.openBrace]
    split_ifs
    · simp [Control.push, Control.count, Goal.Tucked, h]
    · exact tucked_recover t _ h
  | group skipped closers =>
    simp only [Control.work]
    fun_cases Control.group c skipped closers t <;>
      simp [Control.push, Control.count, Goal.Tucked, h]
  | skip skipped any =>
    cases skipped <;> simp only [Control.work, Control.skipOne] <;> split_ifs <;> (try split) <;>
      simp [Control.push, Control.count, Goal.Tucked, h]
  | _ =>
    simp only [Control.work, Control.typeBody]
    (try split_ifs) <;>
      simp [Control.push, Control.count, Control.fail, Goal.Tucked, h, ended]

theorem Nested.frames_ne {goals : List Goal} {frames : List Frame}
    (h : Nested origin base goals frames) : frames ≠ [] := by
  rintro rfl
  simp [Nested] at h

/-- The innermost node is ended only inside another. -/
theorem nested_end {rest : List Goal} {frames : List Frame}
    (h : Nested origin base (.close :: rest) frames) :
    frames.tail ≠ [] ∧ Nested origin base rest frames.tail := by
  cases frames with
  | nil => simp [Nested] at h
  | cons f below => exact ⟨h.2.frames_ne, h.2⟩

variable (origin base) in
/-- The goals of the parser are in line with its open nodes. -/
structure Machine.Aligned (m : Machine) : Prop where
  nested : Nested origin base m.goals m.frames
  tucked : Goal.Tucked true m.goals
  /-- What a question mark can follow has just ended. -/
  ready : m.ok = true → m.goals.head? = some .nullable →
    ∃ f ∈ m.frames.head?, ∃ l children others,
      f.children = .node l children :: others ∧ l.kind.isPart

theorem nested_tail {g : Goal} {rest : List Goal} {frames : List Frame} (hg : g ≠ .close)
    (h : Nested origin base (g :: rest) frames) : Nested origin base rest frames := by
  cases frames with
  | nil => simp [Nested] at h
  | cons f below => cases g <;> first | exact absurd rfl hg | exact h.2

theorem nested_unwind {c : Control} {m : Machine} (t : Token) {g : Goal}
    (h : Nested origin base (g :: c.goals) m.frames) :
    Nested origin base (c.unwind t g).goals (m.perform (c.unwindActions t g)).frames := by
  cases g with
  | close =>
    obtain ⟨inner, rest⟩ := nested_end h
    simpa [Control.unwind, Control.unwindActions, Machine.act, nested_close inner] using rest
  | recover skipped =>
    have rest := nested_tail (by simp) h
    have same : c.recoverActions t skipped =
        ({ c with ok := true } : Control).recoverActions t skipped := by
      rcases skipped with _ | _ | _ <;> rfl
    rw [Control.unwindActions, same]
    exact nested_recover (c := { c with ok := true }) t skipped h.frames_ne rest
  | _ =>
    have rest := nested_tail (by simp) h
    exact rest

theorem performs_unwind {c : Control} {m : Machine} (t : Token) {g : Goal}
    (h : Nested origin base (g :: c.goals) m.frames) : m.Performs (c.unwindActions t g) := by
  cases g with
  | close => exact ⟨(nested_end h).1, trivial⟩
  | recover skipped => exact performs_recover t skipped h.frames_ne
  | _ => trivial

/-- What a step does to the tree can be done. -/
theorem Machine.Aligned.performs {m : Machine} (h : m.Aligned origin base) (t : Token) :
    m.Performs (m.control.actions m.afterComma t) := by
  obtain ⟨arena, generation, frames, pending, goals, ok, taken, blocks⟩ := m
  obtain ⟨nested, -, ready⟩ := h
  cases goals with
  | nil => trivial
  | cons g rest =>
    cases ok with
    | false => exact performs_unwind (c := ⟨rest, false, taken, blocks⟩) t nested
    | true =>
      obtain ⟨f, below, rfl⟩ := List.exists_cons_of_ne_nil nested.frames_ne
      refine performs_work (c := ⟨rest, true, taken, blocks⟩) rfl _ t nested ?_
      rintro rfl
      simpa using ready

theorem tucked_unwind {c : Control} (t : Token) (g : Goal) (h : Goal.Tucked false c.goals) :
    Goal.Tucked false (c.unwind t g).goals := by
  cases g with
  | recover skipped => exact tucked_recover (c := { c with ok := true }) t skipped h
  | _ => exact h

theorem Machine.aligned_of_tucked {m : Machine} (nested : Nested origin base m.goals m.frames)
    (tucked : Goal.Tucked false m.goals) : m.Aligned origin base :=
  ⟨nested, tucked.of_false, fun _ null => absurd null tucked.head?_ne⟩

/-- The end of a node keeps goals and open nodes in line. -/
theorem Machine.aligned_close {m : Machine} {c : Control}
    (nested : Nested origin base (.close :: c.goals) m.frames) (tucked : Goal.Tucked true c.goals) :
    (m.close.resume c).Aligned origin base := by
  obtain ⟨inner, rest⟩ := nested_end nested
  refine ⟨(nested_close inner).mpr rest, tucked, fun _ null => ?_⟩
  obtain ⟨f, g, below, before, after⟩ := close_frames inner
  rw [before] at nested
  exact ⟨{ g with children := m.ended f :: g.children }, by simp [resume, after], _, _, g.children,
    rfl, nested.1.2 null⟩

/-- Every step keeps goals and open nodes in line. -/
theorem Machine.Aligned.step {m : Machine} (h : m.Aligned origin base) (t : Token)
    (begins : ∀ body rest, m.goals = .item body :: rest → origin body rest m.flush.frames) :
    (m.step t).Aligned origin base := by
  rw [step_eq]
  obtain ⟨arena, generation, frames, pending, goals, ok, taken, blocks⟩ := m
  obtain ⟨nested, tucked, ready⟩ := h
  cases goals with
  | nil => exact ⟨nested, tucked, ready⟩
  | cons g rest =>
    by_cases close : g = .close
    · subst close
      cases ok <;> exact aligned_close nested tucked.2
    · have behind : Goal.Tucked false rest := by simpa [close] using tucked.2
      cases ok with
      | false =>
        exact aligned_of_tucked (nested_unwind (c := ⟨rest, false, taken, blocks⟩) t nested)
          (tucked_unwind t g behind)
      | true =>
        obtain ⟨f, below, rfl⟩ := List.exists_cons_of_ne_nil nested.frames_ne
        refine aligned_of_tucked (nested_work (c := ⟨rest, true, taken, blocks⟩) rfl _ t nested
          (fun _ => behind.head?_ne) ?_ ?_) (tucked_work _ t close behind)
        · rintro rfl
          obtain ⟨_, ⟨rfl⟩, _, _, _, some, _⟩ := ready rfl rfl
          simp [some]
        · rintro body rfl
          exact begins body rest rfl

end

end AvroIdl
