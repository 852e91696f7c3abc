import AvroIdl.Proofs.Parser.Position
import AvroIdl.Proofs.Tree.Hole

/-!
# Where statements come from

Every statement of a tree was read in one go: at one reading the parser was to read a statement, and
at a later one it had read it, with nothing else changed. `Reading.Produces` says so of a node, and of
the kinds of the nodes around it. It holds of every statement that a parser has read,
`Reading.Traced.reaches`, wherever it stands in the tree, `Element.placed_fill`.
-/

namespace AvroIdl

/-! ## Origins -/

section

variable {origin origin' : Origin} {base : Body}

theorem Begun.mono (le : ∀ body rest below, origin body rest below → origin' body rest below)
    {body : Body} {rest : List Goal} {below : List Frame} (h : Begun origin base body rest below) :
    Begun origin' base body rest below :=
  ⟨le _ _ _ h.1, h.2⟩

theorem Goal.Fits.mono (le : ∀ body rest below, origin body rest below → origin' body rest below)
    {rest : List Goal} {kind : NodeKind} {below : List Frame} {g : Goal}
    (h : g.Fits origin base rest kind below) : g.Fits origin' base rest kind below := by
  cases g with
  | close =>
    refine ⟨fun alone => ?_, h.2⟩
    obtain ⟨body, begun⟩ := h.1 alone
    exact ⟨body, begun.mono le⟩
  | declaration body =>
    obtain ⟨inner, invalid, rest', hrest, begun⟩ := h
    exact ⟨inner, invalid, rest', hrest, begun.mono le⟩
  | _ => exact h

theorem Nested.mono (le : ∀ body rest below, origin body rest below → origin' body rest below)
    {goals : List Goal} {frames : List Frame} (h : Nested origin base goals frames) :
    Nested origin' base goals frames := by
  induction goals generalizing frames with
  | nil =>
    cases frames with
    | nil => exact h
    | cons f below => exact h
  | cons g rest ih =>
    cases frames with
    | nil => simp [Nested] at h
    | cons f below =>
      cases g with
      | close => exact ⟨Goal.Fits.mono le h.1, ih h.2⟩
      | _ => exact ⟨Goal.Fits.mono (g := _) le h.1, ih h.2⟩

theorem Machine.Aligned.mono
    (le : ∀ body rest below, origin body rest below → origin' body rest below) {m : Machine}
    (h : m.Aligned origin base) : m.Aligned origin' base :=
  ⟨h.nested.mono le, h.tucked, h.ready⟩

end

/-! ## Nodes and the kinds around them -/

namespace Element

section

variable (P : List NodeKind → Label → List Element → Prop)

mutual

/-- A property holds of every statement in an element, with the kinds of the nodes around it from
the inside out. -/
def Placed (around : List NodeKind) : Element → Prop
  | leaf _ => True
  | node l children =>
    (l.kind.standsAlone = true → P around l children) ∧ PlacedOf (l.kind :: around) children

/-- A property holds of every statement in some elements. -/
def PlacedOf (around : List NodeKind) : List Element → Prop
  | [] => True
  | e :: rest => Placed around e ∧ PlacedOf around rest

end

end

variable {P Q : List NodeKind → Label → List Element → Prop}

theorem placedOf_iff {around : List NodeKind} {es : List Element} :
    PlacedOf P around es ↔ ∀ e ∈ es, Placed P around e := by
  induction es with
  | nil => simp [PlacedOf]
  | cons e rest ih => simp [PlacedOf, ih]

@[simp] theorem placedOf_append {around : List NodeKind} {as bs : List Element} :
    PlacedOf P around (as ++ bs) ↔ PlacedOf P around as ∧ PlacedOf P around bs := by
  simp [placedOf_iff, or_imp, forall_and]

@[simp] theorem placedOf_reverse {around : List NodeKind} {es : List Element} :
    PlacedOf P around es.reverse ↔ PlacedOf P around es := by
  simp [placedOf_iff]

mutual

theorem Placed.mono (le : ∀ around l children, P around l children → Q around l children)
    {around : List NodeKind} {e : Element} (h : Placed P around e) : Placed Q around e := by
  cases e with
  | leaf => trivial
  | node l children => exact ⟨fun alone => le _ _ _ (h.1 alone), PlacedOf.mono le h.2⟩

theorem PlacedOf.mono (le : ∀ around l children, P around l children → Q around l children)
    {around : List NodeKind} {es : List Element} (h : PlacedOf P around es) :
    PlacedOf Q around es := by
  cases es with
  | nil => trivial
  | cons e rest => exact ⟨Placed.mono le h.1, PlacedOf.mono le h.2⟩

end

/-- The kinds around a statement are those of nodes with a body. -/
def Housed (P : List NodeKind → Label → List Element → Prop) : Prop :=
  ∀ around l children, P around l children → ∀ k ∈ around, k.body?.isSome = true

mutual

/-- There is no statement in a part of another one, wherever the part stands. -/
theorem Placed.of_part (housed : Housed P) {around around' : List NodeKind} {k : NodeKind}
    (mem : k ∈ around) (part : k.body? = none) {e : Element} (h : Placed P around e) :
    Placed P around' e := by
  cases e with
  | leaf => trivial
  | node l children =>
    refine ⟨fun alone => ?_, PlacedOf.of_part housed (.tail _ mem) part h.2⟩
    have := housed _ _ _ (h.1 alone) k mem
    rw [part] at this
    contradiction

theorem PlacedOf.of_part (housed : Housed P) {around around' : List NodeKind} {k : NodeKind}
    (mem : k ∈ around) (part : k.body? = none) {es : List Element} (h : PlacedOf P around es) :
    PlacedOf P around' es := by
  cases es with
  | nil => trivial
  | cons e rest => exact ⟨Placed.of_part housed mem part h.1, PlacedOf.of_part housed mem part h.2⟩

end

/-- What holds of every statement of a tree holds of a node, in its place. -/
theorem placed_fill {around : List NodeKind} {e : Element} {holes : List Hole}
    (h : Placed P around (Hole.fill e holes)) :
    Placed P (holes.map (·.label.kind) ++ around) e := by
  induction holes generalizing e with
  | nil => exact h
  | cons hole outer ih =>
    have inside := (ih h).2
    rw [Hole.children, placedOf_append] at inside
    exact inside.2.1

end Element

/-! ## What the parser has put in place -/

open Element (Placed PlacedOf Housed)

/-- A property holds of every statement in open nodes. -/
def Frame.Placed (P : List NodeKind → Label → List Element → Prop) : List Frame → Prop
  | [] => True
  | f :: below => PlacedOf P (f.kind :: below.map Frame.kind) f.children ∧ Frame.Placed P below

namespace Machine

/-- A property holds of every statement that the parser has read. What is pending holds none. -/
structure Placed (P : List NodeKind → Label → List Element → Prop) (m : Machine) : Prop where
  frames : Frame.Placed P m.frames
  pending : ∀ around, PlacedOf P around m.pending

variable {P Q : List NodeKind → Label → List Element → Prop} {m : Machine}

theorem Placed.mono (le : ∀ around l children, P around l children → Q around l children)
    (h : m.Placed P) : m.Placed Q := by
  refine ⟨?_, fun around => (h.pending around).mono le⟩
  have frames := h.frames
  generalize m.frames = fs at frames
  induction fs with
  | nil => trivial
  | cons f below ih => exact ⟨frames.1.mono le, ih frames.2⟩

/-- Changes of the innermost node that put nothing new into it. -/
theorem Placed.onTop (h : m.Placed P) {change : Frame → Frame}
    (top : ∀ f ∈ m.frames.head?, ∀ around, PlacedOf P (f.kind :: around) f.children →
      PlacedOf P ((change f).kind :: around) (change f).children) : (m.onTop change).Placed P := by
  obtain ⟨frames, pending⟩ := h
  cases hm : m.frames with
  | nil => simpa [Machine.onTop, hm] using ⟨frames, pending⟩
  | cons f below =>
    rw [hm] at frames
    simp only [Machine.onTop, hm]
    exact ⟨⟨top f (by simp [hm]) _ frames.1, frames.2⟩, pending⟩

theorem Placed.flush (h : m.Placed P) : m.flush.Placed P := by
  have top : (m.onTop fun f => { f with children := m.pending.reverse ++ f.children }).Placed P := by
    refine h.onTop fun f _ around placed => ?_
    rw [Element.placedOf_append, Element.placedOf_reverse]
    exact ⟨h.pending _, placed⟩
  exact ⟨top.frames, fun _ => trivial⟩

theorem Placed.begin (h : m.Placed P) (kind : NodeKind) (error : Option SyntaxError) :
    (m.begin kind error).Placed P :=
  ⟨by rw [frames_begin]; exact ⟨trivial, h.flush.frames⟩, h.flush.pending⟩

theorem Placed.take (h : m.Placed P) (t : Token) : (m.take t).Placed P := by
  have top : (m.flush.onTop fun f => { f with children := .leaf t :: f.children }).Placed P :=
    h.flush.onTop fun f _ around placed => ⟨trivial, placed⟩
  exact ⟨top.frames, top.pending⟩

theorem Placed.takeName (h : m.Placed P) (t : Token) : (m.takeName t).Placed P := by
  refine Placed.take ?_ t
  exact h.flush.onTop fun _ _ _ placed => placed

/-- A node that ends is put in place if it is no statement, or if the property holds of it. -/
theorem Placed.close (h : m.Placed P)
    (ends : ∀ f g below, m.frames = f :: g :: below → f.kind.standsAlone = true →
      P (g.kind :: below.map Frame.kind)
        (m.arena.nextLabel m.generation f.kind f.name f.error f.children.reverse)
        f.children.reverse) : m.close.Placed P := by
  obtain ⟨frames, pending⟩ := h
  rcases hm : m.frames with _ | ⟨f, _ | ⟨g, below⟩⟩
  · simpa [Machine.close, hm] using ⟨frames, pending⟩
  · simpa [Machine.close, hm] using ⟨frames, pending⟩
  · rw [hm] at frames
    obtain ⟨inside, beside, outside⟩ := frames
    simp only [Machine.close, hm]
    refine ⟨⟨⟨⟨ends f g below hm, ?_⟩, beside⟩, outside⟩, pending⟩
    rw [Element.placedOf_reverse]
    exact inside

theorem Placed.hold (h : m.Placed P) (t : Token) : (m.hold t).Placed P := by
  unfold Machine.hold
  cases t.error with
  | none =>
    refine ⟨h.frames, fun around => ?_⟩
    rw [Element.placedOf_append]
    exact ⟨h.pending around, trivial, trivial⟩
  | some cause =>
    refine ⟨h.frames, fun around => ?_⟩
    rw [Element.placedOf_append]
    exact ⟨h.pending around, ⟨nofun, trivial, trivial⟩, trivial⟩

theorem Placed.receive (h : m.Placed P) (l : Lexeme) : (m.receive l).Placed P := by
  unfold Machine.receive
  induction l.leading generalizing m with
  | nil => exact h
  | cons t rest ih => exact ih (h.hold t)

/-- The innermost node has no kind yet, or is a part of a statement: no statement stands in it. -/
theorem Placed.act (h : m.Placed P) (housed : Housed P) {a : Action} (enabled : a.Enabled m)
    (ends : a = .close → ∀ f g below, m.frames = f :: g :: below → f.kind.standsAlone = true →
      P (g.kind :: below.map Frame.kind)
        (m.arena.nextLabel m.generation f.kind f.name f.error f.children.reverse)
        f.children.reverse) : (m.act a).Placed P := by
  cases a with
  | begin kind error => exact h.begin kind error
  | become kind =>
    refine h.onTop fun f top around placed => ?_
    exact placed.of_part housed List.mem_cons_self (by rw [enabled.2.2 f top]; rfl)
  | becomeError error =>
    refine h.onTop fun f top around placed => ?_
    exact placed.of_part housed List.mem_cons_self (by rw [enabled.2 f top]; rfl)
  | wrapLast kind =>
    obtain ⟨_, f, top, l, children, others, hc, part⟩ := enabled
    obtain ⟨below, hm⟩ : ∃ below, m.frames = f :: below := List.head?_eq_some_iff.mp top
    obtain ⟨frames, pending⟩ := h
    rw [hm] at frames
    obtain ⟨inside, outside⟩ := frames
    rw [hc] at inside
    simp only [NodeKind.isPart, Bool.and_eq_true, Bool.not_eq_true', Option.isNone_iff_eq_none]
      at part
    have last : Element.Placed P (kind :: f.kind :: below.map Frame.kind) (.node l children) :=
      ⟨fun alone => by rw [part.1] at alone; contradiction,
        inside.1.2.of_part housed List.mem_cons_self part.2⟩
    simp only [Machine.act, Machine.wrapLast, hm, hc]
    exact ⟨⟨⟨last, trivial⟩, inside.2, outside⟩, pending⟩
  | take t => exact h.take t
  | takeName t => exact h.takeName t
  | close => exact h.close (ends rfl)

end Machine

/-! ## Actions that end parts of statements only -/

namespace Action

/-- Every node that is ended was begun by the same actions, and is no statement. The first argument
is the kind of the innermost node, if these actions have begun it. -/
def tidy : Option NodeKind → List Action → Bool
  | _, [] => true
  | _, .begin kind _ :: rest | _, .wrapLast kind :: rest => tidy (some kind) rest
  | begun, .take _ :: rest | begun, .takeName _ :: rest => tidy begun rest
  | _, .become _ :: rest | _, .becomeError _ :: rest => tidy none rest
  | begun, .close :: rest => begun.any (fun k => !k.standsAlone) && tidy none rest

end Action

namespace Control

theorem tidy_recover (c : Control) (t : Token) (skipped : Option Skipped) :
    Action.tidy none (c.recoverActions t skipped) = true := by
  fun_cases recoverActions c t skipped <;> rfl

theorem tidy_openBrace (c : Control) (t : Token) :
    Action.tidy none (c.openBraceActions t) = true := by
  unfold openBraceActions
  split_ifs
  · rfl
  · exact c.tidy_recover t _

theorem tidy_declaration {c after : Control} {t : Token} {body : Body} {actions : List Action}
    (declares : c.Declares t body after actions) : Action.tidy none actions = true := by
  cases declares with
  | dangling => exact c.tidy_recover t _
  | _ => rfl

/-- A statement is ended by a goal of its own. -/
theorem tidy_work (c : Control) (comma : Bool) (t : Token) {g : Goal} (hg : g ≠ .close) :
    Action.tidy none (c.workActions comma t g) = true := by
  cases g with
  | close => exact absurd rfl hg
  | declaration body => exact tidy_declaration (c.declares t body)
  | enumBody => exact c.tidy_openBrace t
  | block body => exact c.tidy_openBrace t
  | item body =>
    cases body <;> simp only [workActions, Action.item] <;> (try split_ifs) <;> rfl
  | skip skipped any => cases skipped <;> simp only [workActions] <;> split_ifs <;> rfl
  | _ =>
    simp only [workActions, Action.mark, Action.enumSymbols, Action.json, Action.separator,
      Action.typeBody, Action.expected, Action.report]
    (try split_ifs) <;> rfl

theorem tidy_unwind (c : Control) (t : Token) {g : Goal} (hg : g ≠ .close) :
    Action.tidy none (c.unwindActions t g) = true := by
  cases g with
  | close => exact absurd rfl hg
  | recover skipped => exact c.tidy_recover t skipped
  | _ => rfl

theorem tidy_actions {c : Control} (comma : Bool) (t : Token) (hg : c.goals.head? ≠ some .close) :
    Action.tidy none (c.actions comma t) = true := by
  obtain ⟨goals, ok, taken, blocks⟩ := c
  cases goals with
  | nil => rfl
  | cons g rest =>
    replace hg : g ≠ .close := fun e => hg (by rw [e]; rfl)
    cases ok with
    | true => exact tidy_work _ comma t hg
    | false => exact tidy_unwind _ t hg

end Control

namespace Machine

variable {P : List NodeKind → Label → List Element → Prop} {m : Machine}

/-- The innermost node is of a kind. -/
def Within (k : NodeKind) (m : Machine) : Prop := ∀ f ∈ m.frames.head?, f.kind = k

theorem Within.onTop {k : NodeKind} (h : m.Within k) {change : Frame → Frame}
    (same : ∀ f, (change f).kind = f.kind) : (m.onTop change).Within k := by
  intro f mem
  cases hm : m.frames with
  | nil => simp [Machine.onTop, hm] at mem
  | cons g below =>
    obtain rfl : change g = f := by simpa [Machine.onTop, hm] using mem
    rw [same, h g (by simp [hm])]

theorem Within.flush {k : NodeKind} (h : m.Within k) : m.flush.Within k := by
  have top : (m.onTop fun f => { f with children := m.pending.reverse ++ f.children }).Within k :=
    h.onTop fun _ => rfl
  exact top

theorem Within.take {k : NodeKind} (h : m.Within k) (t : Token) : (m.take t).Within k := by
  have top : (m.flush.onTop fun f => { f with children := .leaf t :: f.children }).Within k :=
    h.flush.onTop fun _ => rfl
  exact top

theorem Within.takeName {k : NodeKind} (h : m.Within k) (t : Token) : (m.takeName t).Within k := by
  refine Within.take ?_ t
  exact h.flush.onTop fun _ => rfl

/-- Actions that end parts of statements only keep what holds of every statement. -/
theorem Placed.perform (h : m.Placed P) (housed : Housed P) {actions : List Action}
    (performs : m.Performs actions) {begun : Option NodeKind}
    (tidy : Action.tidy begun actions = true) (top : ∀ k ∈ begun, m.Within k) :
    (m.perform actions).Placed P := by
  induction actions generalizing m begun with
  | nil => exact h
  | cons a rest ih =>
    obtain ⟨enabled, performs⟩ := performs
    cases a with
    | begin kind error =>
      refine ih (h.act housed enabled (by simp)) performs tidy ?_
      rintro _ ⟨⟩ f mem
      obtain rfl : { kind, error } = f := by simpa [Machine.act] using mem
      rfl
    | wrapLast kind =>
      have placed := h.act housed enabled (by simp)
      obtain ⟨_, f, hf, l, children, others, hc, _⟩ := enabled
      obtain ⟨below, hm⟩ : ∃ below, m.frames = f :: below := List.head?_eq_some_iff.mp hf
      refine ih placed performs tidy ?_
      rintro _ ⟨⟩ f' mem
      obtain rfl : { kind, children := [.node l children] } = f' := by
        simpa [Machine.act, Machine.wrapLast, hm, hc] using mem
      rfl
    | take t =>
      exact ih (h.act housed enabled (by simp)) performs tidy fun k mem => (top k mem).take t
    | takeName t =>
      exact ih (h.act housed enabled (by simp)) performs tidy fun k mem => (top k mem).takeName t
    | become kind => exact ih (h.act housed enabled (by simp)) performs tidy (by simp)
    | becomeError error => exact ih (h.act housed enabled (by simp)) performs tidy (by simp)
    | close =>
      rw [Action.tidy, Bool.and_eq_true] at tidy
      cases begun with
      | none => exact absurd tidy.1 (by simp)
      | some k =>
        have plain : k.standsAlone = false := by simpa using tidy.1
        refine ih (h.act housed enabled fun _ f g below hm alone => ?_) performs tidy.2 (by simp)
        rw [top k rfl f (by simp [hm]), plain] at alone
        contradiction

end Machine

/-- The end of a node takes one goal off the stack. -/
theorem Machine.step_close {m : Machine} {rest : List Goal} (hg : m.goals = .close :: rest)
    (t : Token) : m.step t = m.close.resume { m.control with goals := rest } := by
  rw [step_eq]
  cases ok : m.ok <;>
    simp [Control.actions, Control.step, Control.workActions, Control.unwindActions, Control.work,
      Control.unwind, control, hg, ok, act]

/-! ## Statements on the way -/

namespace Reading

open Machine

/-- A statement began in a place on the way from `first` to `r`. -/
def origin (first r : Reading) : Origin := fun body rest below =>
  ∃ r₀, Reaches first r₀ ∧ Reaches r₀ r ∧ r₀.machine.goals = .item body :: rest ∧
    r₀.machine.flush.frames = below

/-- A node is a statement that was read on the way from `first` to `r`, with nodes of these kinds
around it. Between the reading `r₀` and the reading `r₁` the parser has read the statement and
nothing else. -/
def Produces (first r : Reading) (around : List NodeKind) (l : Label) (children : List Element) :
    Prop :=
  ∃ r₀ r₁ body, Reaches first r₀ ∧ Reaches r₀ r₁ ∧ Reaches r₁ r ∧
    r₀.machine.goals = .item body :: r₁.machine.goals ∧
    r₁.machine.frames = Frame.push (.node l children) r₀.machine.flush.frames ∧
    r₀.machine.flush.frames.map Frame.kind = around ∧ ∀ k ∈ around, k.body?.isSome = true

theorem housed_produces (first r : Reading) : Housed (Produces first r) := by
  rintro around l children ⟨_, _, _, _, _, _, _, _, _, bodies⟩
  exact bodies

/-- What holds of a reading on the way from another. -/
structure Traced (first : Reading) (base : Body) (r : Reading) : Prop where
  way : Reaches first r
  aligned : r.machine.Aligned (origin first r) base
  placed : r.machine.Placed (Produces first r)

theorem Traced.next {first r r' : Reading} {base : Body} (h : Traced first base r)
    (next : Next r r') : Traced first base r' := by
  obtain ⟨way, aligned, placed⟩ := h
  have later : ∀ body rest below, origin first r body rest below → origin first r' body rest below :=
    fun _ _ _ ⟨r₀, before, after, hg, hf⟩ => ⟨r₀, before, after.tail next, hg, hf⟩
  have kept : r.machine.Placed (Produces first r') := placed.mono
    fun _ _ _ ⟨r₀, r₁, body, before, reads, after, rest⟩ =>
      ⟨r₀, r₁, body, before, reads, after.tail next, rest⟩
  have step (t : Token) : (r.machine.step t).Aligned (origin first r') base := by
    refine (aligned.step t fun body rest hg => ?_).mono later
    exact ⟨r, way, .refl, hg, rfl⟩
  have plain (t : Token) (hg : r.machine.goals.head? ≠ some .close) :
      (r.machine.step t).Placed (Produces first r') := by
    have done := kept.perform (housed_produces first r') (aligned.performs t)
      (Control.tidy_actions (c := r.machine.control) _ t hg) nofun
    rw [step_eq]
    exact ⟨done.frames, done.pending⟩
  cases next with
  | @stay m t rest todo stays =>
    refine ⟨way.tail (.stay todo stays), step t, ?_⟩
    by_cases hg : m.goals.head? = some .close
    · -- The statement that ends is the one that began when the goals behind it were the same.
      obtain ⟨goals, hg⟩ := List.head?_eq_some_iff.mp hg
      have nested := aligned.nested
      rw [show _ = _ from hg] at nested
      have ended := step_close hg t
      have done := kept.close fun f g below hm alone => by
        rw [show _ = _ from hm] at nested
        obtain ⟨body, begun⟩ := nested.1.1 alone
        obtain ⟨r₀, before, reads, hr₀, hf⟩ := begun.1
        have bodies : ∀ k ∈ g.kind :: below.map Frame.kind, k.body?.isSome = true := by
          intro k mem
          obtain ⟨f', mem', rfl⟩ := List.mem_map.mp (show k ∈ (g :: below).map Frame.kind from mem)
          exact begun.bodies f' mem'
        refine ⟨r₀, _, body, before, reads.tail (.stay todo stays), .refl, ?_, ?_, by rw [hf]; rfl,
          bodies⟩
        · rw [hr₀, ended]
          rfl
        · rw [ended, hf]
          simp [resume, Machine.close, show m.frames = _ from hm, Frame.push]
      rw [ended] at done ⊢
      exact ⟨done.frames, done.pending⟩
    · exact plain t hg
  | @move m t l rest takes =>
    have hg : m.goals.head? ≠ some .close := by
      intro hg
      obtain ⟨goals, hg⟩ := List.head?_eq_some_iff.mp hg
      rw [step_close hg] at takes
      replace takes : m.taken = m.taken + 1 := takes
      omega
    exact ⟨way.tail (.move takes), (step t).receive l, (plain t hg).receive l⟩

theorem Traced.reaches {first r r' : Reading} {base : Body} (h : Traced first base r)
    (way : Reaches r r') : Traced first base r' := by
  induction way with
  | refl => exact h
  | tail _ next ih => exact ih.next next

/-- The way through a text begins with nothing read. -/
theorem traced_ofText {base : Body} {goals : List Goal} (task : Goal.Task base goals)
    (arena : Arena) (generation : UInt64) (blocks : Nat) (text : Bytes) :
    let first := ofText (Machine.start arena generation blocks goals) text
    Traced first base first := by
  intro first
  obtain ⟨l, rest, hl, -⟩ := lexemes_eq_cons text
  have here : first = Reading.start (Machine.start arena generation blocks goals) l rest := by
    simp only [first, ofText, hl]
  have placed : (Machine.start arena generation blocks goals).Placed (Produces first first) :=
    ⟨⟨trivial, trivial⟩, fun _ => trivial⟩
  refine ⟨.refl, ?_, ?_⟩
  · rw [here]
    exact (aligned_start task ..).receive l
  · rw [here] at placed ⊢
    exact placed.receive l

end Reading

end AvroIdl
