import AvroIdl.Proofs.Parser.Acceptance
import AvroIdl.Proofs.Parser.Placement

/-!
# Errors that are accounted for

What is skipped after an error is put into an error node that has nothing to report. It is marked
all the same, and so are the nodes around it. This is right only if the error itself is reported
beside it, and `Element.Accounted` says where: a node with a child that is marked but reports
nothing has another child that does report something.

Statements are replaced when they are read again, and what they reported is gone then. So in a node
that holds statements the other child is an error node, which is never replaced by itself.

* `Machine.Accounted.act`: errors stay accounted for after an action that makes nothing to be answered
  for;
* `Machine.Accounted.missing`, `Machine.Accounted.dangling`, `Machine.Accounted.nullable`: so do the
  others, each together with the actions of the same step.
-/

namespace AvroIdl

open Element (AllOf Silent Marked)

/-- Whether nodes of this kind hold statements, or have yet to be given a kind. -/
def NodeKind.isHost (kind : NodeKind) : Bool := kind = .invalid || kind.body?.isSome

namespace Element

/-- An element is marked although it reports nothing. -/
def Mute (e : Element) : Prop := e.hasError = true ∧ e.All Silent

/-- An element reports something in a node of some kind. Where statements stand, they can be
replaced, so that an error node has to do it. -/
def Answers (kind : NodeKind) (e : Element) : Prop :=
  ¬ e.All Silent ∧ (kind.isHost = true → e.IsError)

/-- The errors among the children of a node of some kind are accounted for. -/
structure AccountedIn (kind : NodeKind) (children : List Element) : Prop where
  /-- Malformed tokens stand in nodes of their own. -/
  leaves : ∀ t, .leaf t ∈ children → t.kind ≠ .error
  answered : ∀ e ∈ children, e.Mute → ∃ a ∈ children, a.Answers kind

/-- The errors in a node are accounted for, unless it is an error node. -/
def Accounted (l : Label) (children : List Element) : Prop :=
  l.kind ≠ .error → AccountedIn l.kind children

theorem mute_leaf {t : Token} : (leaf t).Mute ↔ t.kind = .error := by
  simp [Mute, hasError, All]

/-- A node that is no error node is marked only if it reports something. -/
theorem not_mute_node {l : Label} {children : List Element} (marked : Marked l children)
    (other : l.kind ≠ .error) (h : AccountedIn l.kind children) : ¬ (node l children).Mute := by
  rintro ⟨error, -, silent⟩
  have error : l.hasError = true := error
  rw [marked, Bool.or_eq_true, decide_eq_true_eq, or_iff_right other, List.any_eq_true] at error
  obtain ⟨e, mem, error⟩ := error
  obtain ⟨a, there, loud, -⟩ := h.answered e mem ⟨error, allOf_iff.mp silent e mem⟩
  exact loud (allOf_iff.mp silent a there)

theorem accountedIn_of_not_mute {kind : NodeKind} {children : List Element}
    (none : ∀ e ∈ children, ¬ e.Mute) : AccountedIn kind children :=
  ⟨fun _ mem error => none _ mem (mute_leaf.mpr error), fun e mem mute => absurd mute (none e mem)⟩

/-- More children that are all accounted for. -/
theorem AccountedIn.more {kind : NodeKind} {es : List Element} (h : AccountedIn kind es)
    {later : List Element} (leaves : ∀ t, .leaf t ∈ later → t.kind ≠ .error)
    (answered : ∀ e ∈ later, e.Mute → ∃ a ∈ later ++ es, a.Answers kind) :
    AccountedIn kind (later ++ es) := by
  refine ⟨fun t mem => ?_, fun e mem mute => ?_⟩
  · rcases List.mem_append.mp mem with new | old
    · exact leaves t new
    · exact h.leaves t old
  · rcases List.mem_append.mp mem with new | old
    · exact answered e new mute
    · obtain ⟨a, there, answers⟩ := h.answered e old mute
      exact ⟨a, List.mem_append_right _ there, answers⟩

/-- Another child takes the place of the newest one, and reports what that reported. -/
theorem AccountedIn.replace {kind : NodeKind} {e e' : Element} {others : List Element}
    (h : AccountedIn kind (e :: others)) (other : kind.isHost = false) (node : ∀ t, e' ≠ leaf t)
    (mute : ¬ e'.Mute) (loud : ¬ e.All Silent → ¬ e'.All Silent) :
    AccountedIn kind (e' :: others) := by
  constructor
  · intro t mem
    rcases List.mem_cons.mp mem with eq | old
    · exact absurd eq.symm (node t)
    · exact h.leaves t (.tail _ old)
  · intro a mem silent
    rcases List.mem_cons.mp mem with rfl | old
    · exact absurd silent mute
    · obtain ⟨d, there, reports, error⟩ := h.answered a (.tail _ old) silent
      rcases List.mem_cons.mp there with rfl | there
      · exact ⟨e', List.mem_cons_self, loud reports, fun host => by simp [other] at host⟩
      · exact ⟨d, .tail _ there, reports, error⟩

end Element

/-! ## Open nodes -/

namespace Frame

/-- The errors in an open node are accounted for so far. -/
def Accounted (f : Frame) : Prop := f.kind ≠ .error → Element.AccountedIn f.kind f.children

/-- An open node has nothing to report although it will be marked for itself. -/
def Mute (f : Frame) : Prop := f.kind = .error ∧ f.error = none ∧ AllOf Silent f.children

/-- An open node can have a child that is marked and reports nothing. -/
def Answers (f : Frame) : Prop := f.kind ≠ .error → ∃ a ∈ f.children, a.Answers f.kind

/-- An open node has something to report. -/
def Sounds (f : Frame) : Prop := f.reports = true ∨ ∃ e ∈ f.children, ¬ e.All Silent

/-- The errors in all open nodes are accounted for, from the inside out. -/
structure Stacked (frames : List Frame) : Prop where
  accounted : ∀ f ∈ frames, f.Accounted
  answered : frames.IsChain fun f g => f.Mute → g.Answers

/-- An open node with more children. -/
def plus (f : Frame) (later : List Element) : Frame := { f with children := later ++ f.children }

variable {f f' : Frame} {rest : List Frame}

theorem Accounted.plus (h : f.Accounted) {later : List Element} (none : ∀ e ∈ later, ¬ e.Mute) :
    (f.plus later).Accounted := fun other =>
  (h other).more (fun _ mem error => none _ mem (Element.mute_leaf.mpr error))
    fun e mem mute => absurd mute (none e mem)

theorem Mute.of_plus {later : List Element} (h : (f.plus later).Mute) : f.Mute :=
  ⟨h.1, h.2.1, (Element.allOf_append.mp h.2.2).2⟩

theorem Answers.plus (h : f.Answers) (later : List Element) : (f.plus later).Answers := by
  intro other
  obtain ⟨a, mem, answers⟩ := h other
  exact ⟨a, List.mem_append_right _ mem, answers⟩

/-- What has something to report can answer for a child, unless statements stand in it. -/
theorem Sounds.answers (h : f.Sounds) (other : f.kind.isHost = false) : f.Answers := by
  intro kind
  rcases h with here | ⟨e, mem, loud⟩
  · simp [reports, kind] at here
  · exact ⟨e, mem, loud, fun host => by simp [other] at host⟩

theorem Stacked.tail (h : Stacked (f :: rest)) : Stacked rest :=
  ⟨fun g mem => h.accounted g (.tail _ mem), h.answered.tail⟩

theorem Stacked.cons (h : Stacked rest) (here : f.Accounted)
    (mute : f.Mute → ∀ g ∈ rest.head?, g.Answers) : Stacked (f :: rest) := by
  refine ⟨?_, List.isChain_cons.mpr ⟨fun g top silent => mute silent g top, h.answered⟩⟩
  rintro g (_ | ⟨_, mem⟩)
  · exact here
  · exact h.accounted g mem

/-- The innermost open node becomes another. -/
theorem Stacked.change (h : Stacked (f :: rest)) (here : f'.Accounted)
    (mute : f'.Mute → f.Mute) : Stacked (f' :: rest) :=
  h.tail.cons here fun silent g top => (List.isChain_cons.mp h.answered).1 g top (mute silent)

theorem Stacked.plus (h : Stacked (f :: rest)) {later : List Element}
    (none : ∀ e ∈ later, ¬ e.Mute) : Stacked (f.plus later :: rest) :=
  h.change ((h.accounted f List.mem_cons_self).plus none) .of_plus

end Frame

namespace Machine

variable {m : Machine}

theorem exists_frame (inner : m.frames.tail ≠ []) : ∃ f below, m.frames = f :: below := by
  apply List.exists_cons_of_ne_nil
  intro none
  exact inner (by rw [none]; rfl)

/-- A node that ends reports what it had to report. -/
theorem not_silent_ended {f : Frame} (h : f.Sounds) : ¬ (m.ended f).All Silent := by
  rintro ⟨here, silent⟩
  rcases h with reports | ⟨e, mem, loud⟩
  · exact Bool.false_ne_true (here.symm.trans reports)
  · exact loud (Element.allOf_iff.mp silent e (List.mem_reverse.mpr mem))

theorem accounted_ended {f : Frame} (h : f.Accounted) :
    Element.Accounted (m.arena.nextLabel m.generation f.kind f.name f.error f.children.reverse)
      f.children.reverse := by
  intro other
  obtain ⟨leaves, answered⟩ := h other
  refine ⟨fun t mem => leaves t (List.mem_reverse.mp mem), fun e mem mute => ?_⟩
  obtain ⟨a, there, answers⟩ := answered e (List.mem_reverse.mp mem) mute
  exact ⟨a, List.mem_reverse.mpr there, answers⟩

/-- A node that is marked and reports nothing when it ends was an error node without a message. -/
theorem mute_of_ended {f : Frame} (h : f.Accounted) (mute : (m.ended f).Mute) : f.Mute := by
  by_cases error : f.kind = .error
  · have silent : f.reports = false := mute.2.1
    refine ⟨error, ?_, Element.allOf_reverse.mp mute.2.2⟩
    simpa [Frame.reports, error] using silent
  · exact absurd mute (Element.not_mute_node rfl error (accounted_ended h error))

/-- The errors in all that has been read are accounted for. -/
structure Accounted (m : Machine) : Prop where
  frames : Frame.Stacked m.frames
  pending : ∀ e ∈ m.pending, ¬ e.Mute
  elements : AllOf Element.Accounted m.elements

theorem Accounted.flush (h : m.Accounted) (some : m.frames ≠ []) : m.flush.Accounted := by
  obtain ⟨f, below, hm⟩ := List.exists_cons_of_ne_nil some
  refine ⟨?_, by simp [Machine.flush], by rw [elements_flush some]; exact h.elements⟩
  have frames := h.frames
  simp only [Machine.flush, Machine.onTop, hm] at frames ⊢
  exact frames.plus fun e mem => h.pending e (List.mem_reverse.mp mem)

theorem Accounted.take (h : m.Accounted) (some : m.frames ≠ []) {t : Token}
    (proper : t.kind ≠ .error) : (m.take t).Accounted := by
  obtain ⟨f, below, hm⟩ := List.exists_cons_of_ne_nil (m.frames_flush_eq_nil.not.mpr some)
  refine ⟨?_, by simp, by rw [elements_take some]; exact allOf_leaf h.elements t⟩
  have frames := (h.flush some).frames
  have leaf : ∀ e ∈ [Element.leaf t], ¬ e.Mute := by simpa [Element.mute_leaf] using proper
  simp only [Machine.take, Machine.onTop, hm] at frames ⊢
  exact frames.plus leaf

/-- Only the name of the innermost node changes. -/
theorem Accounted.rename (h : m.Accounted) (name : Frame → Option Nat) :
    (m.onTop fun f => { f with name := name f }).Accounted := by
  refine ⟨?_, by simpa using h.pending, ?_⟩
  · cases hm : m.frames with
    | nil => simpa [Machine.onTop, hm] using h.frames
    | cons f below =>
      have frames := h.frames
      simp only [Machine.onTop, hm] at frames ⊢
      exact frames.change (frames.accounted f List.mem_cons_self) id
  · have same : (m.onTop fun f => { f with name := name f }).elements = m.elements :=
      elements_onTop fun _ => rfl
    rw [same]
    exact h.elements

theorem Accounted.takeName (h : m.Accounted) (some : m.frames ≠ []) {t : Token}
    (proper : t.kind ≠ .error) : (m.takeName t).Accounted :=
  ((h.flush some).rename _).take (by simpa using some) proper

/-- A node begins, where the one around it answers for it if it has nothing to report. -/
theorem Accounted.begin (h : m.Accounted) (some : m.frames ≠ []) {kind : NodeKind}
    {error : Option SyntaxError}
    (mute : kind = .error → error = none → ∀ f ∈ m.frames.head?, f.Answers) :
    (m.begin kind error).Accounted := by
  have flushed := h.flush some
  refine ⟨?_, flushed.pending, by rw [elements_begin some]; exact h.elements⟩
  rw [frames_begin]
  refine flushed.frames.cons (fun _ => Element.accountedIn_of_not_mute (by simp)) ?_
  rintro ⟨kind, none, -⟩ g top
  obtain ⟨f, below, hm⟩ := List.exists_cons_of_ne_nil some
  simp only [Machine.flush, Machine.onTop, hm, List.head?_cons, Option.mem_some_iff] at top
  subst top
  exact (mute kind none f (by simp [hm])).plus _

theorem Accounted.become (h : m.Accounted) {kind : NodeKind}
    (enabled : (Action.become kind).Enabled m) : (m.become kind).Accounted := by
  obtain ⟨other, inner, bare⟩ := enabled
  obtain ⟨f, below, hm⟩ := exists_frame inner
  have same : (m.become kind).elements = m.elements := elements_onTop fun _ => rfl
  refine ⟨?_, by simpa [Machine.become] using h.pending, by rw [same]; exact h.elements⟩
  have frames := h.frames
  have bare : f.kind = .invalid := bare f (by simp [hm])
  simp only [Machine.become, Machine.onTop, hm] at frames ⊢
  refine frames.change (fun _ => ?_) fun mute => absurd mute.1 other
  obtain ⟨leaves, answered⟩ := frames.accounted f List.mem_cons_self (by simp [bare])
  refine ⟨leaves, fun e mem mute => ?_⟩
  obtain ⟨a, there, loud, error⟩ := answered e mem mute
  exact ⟨a, there, loud, fun _ => error (by simp [bare, NodeKind.isHost])⟩

theorem Accounted.becomeError (h : m.Accounted) (error : SyntaxError) (inner : m.frames.tail ≠ []) :
    (m.becomeError (some error)).Accounted := by
  obtain ⟨f, below, hm⟩ := exists_frame inner
  have same : (m.becomeError (some error)).elements = m.elements := elements_onTop fun _ => rfl
  refine ⟨?_, by simpa [Machine.becomeError] using h.pending, by rw [same]; exact h.elements⟩
  have frames := h.frames
  simp only [Machine.becomeError, Machine.onTop, hm] at frames ⊢
  exact frames.change (fun other => absurd rfl other) fun mute => absurd mute.2.1 (by simp)

/-- The node around one that ends answers for it, if it has to. -/
theorem Accounted.close (h : m.Accounted) (inner : m.frames.tail ≠ []) : m.close.Accounted := by
  obtain ⟨f, g, below, hm, closed⟩ := close_frames inner
  have frames := h.frames
  rw [hm] at frames
  have here : f.Accounted := frames.accounted f List.mem_cons_self
  refine ⟨?_, by simpa [Machine.close, hm] using h.pending,
    allOf_close hm h.elements (accounted_ended here)⟩
  rw [closed]
  have more : (g.plus [m.ended f]).Accounted := by
    refine fun other => (frames.accounted g (by simp) other).more (by simp [ended]) ?_
    intro e mem mute
    obtain rfl := List.mem_singleton.mp mem
    obtain ⟨a, there, answers⟩ :=
      (List.isChain_cons_cons.mp frames.answered).1 (mute_of_ended here mute) other
    exact ⟨a, .tail _ there, answers⟩
  have mute : (g.plus [m.ended f]).Mute → g.Mute := .of_plus
  exact frames.tail.change more mute

end Machine

/-! ## Actions -/

/-- Whether an action makes nothing that has to be answered for. -/
def Action.isPlain : Action → Bool
  | .begin kind error => kind ≠ .error || error.isSome
  | .becomeError error => error.isSome
  | .wrapLast _ => false
  | .take t | .takeName t => t.kind ≠ .error
  | .become _ | .close => true

namespace Machine

variable {m : Machine}

theorem Accounted.act (h : m.Accounted) {a : Action} (enabled : a.Enabled m)
    (plain : a.isPlain = true) : (m.act a).Accounted := by
  have outer (inner : m.frames.tail ≠ []) : m.frames ≠ [] := fun none => inner (by rw [none]; rfl)
  cases a with
  | begin kind error =>
    refine h.begin enabled fun kind none => ?_
    simp [Action.isPlain, kind, none] at plain
  | become kind => exact h.become enabled
  | becomeError error =>
    obtain ⟨error, rfl⟩ := Option.isSome_iff_exists.mp plain
    exact h.becomeError error enabled.1
  | wrapLast kind => contradiction
  | take t => exact h.take (outer enabled) (by simpa [Action.isPlain] using plain)
  | takeName t => exact h.takeName (outer enabled.1) (by simpa [Action.isPlain] using plain)
  | close => exact h.close enabled

theorem Accounted.perform (h : m.Accounted) {actions : List Action} (performs : m.Performs actions)
    (plain : actions.all Action.isPlain = true) : (m.perform actions).Accounted := by
  induction actions generalizing m with
  | nil => exact h
  | cons a rest ih =>
    rw [List.all_cons, Bool.and_eq_true] at plain
    exact ih (h.act performs.1 plain.1) performs.2 plain.2

theorem performs_append {as bs : List Action} (h : m.Performs (as ++ bs)) :
    m.Performs as ∧ (m.perform as).Performs bs := by
  induction as generalizing m with
  | nil => exact ⟨trivial, h⟩
  | cons a rest ih =>
    obtain ⟨first, others⟩ := ih h.2
    exact ⟨⟨h.1, first⟩, others⟩

/-- An error that is reported is an error node behind all that the innermost node holds. -/
theorem frames_report {f : Frame} {below : List Frame} (hm : m.frames = f :: below)
    (error : SyntaxError) :
    ∃ e : Element, ¬ e.All Silent ∧ e.IsError ∧
      (m.perform (Action.report error)).frames = f.plus (e :: m.pending.reverse) :: below := by
  refine ⟨m.flush.ended { kind := .error, error := some error }, ?_, rfl, ?_⟩
  · exact not_silent_ended (.inl rfl)
  · simp [Action.report, Machine.act, Machine.begin, Machine.close, Machine.flush, Machine.onTop,
      hm, Frame.plus, ended]

theorem pending_report (some : m.frames ≠ []) (error : SyntaxError) :
    (m.perform (Action.report error)).pending = [] := by
  obtain ⟨f, below, hm⟩ := List.exists_cons_of_ne_nil some
  simp [Action.report, Machine.act, Machine.begin, Machine.close, Machine.flush, Machine.onTop, hm]

/-- What is reported is a node that needs no account. -/
theorem elements_report (some : m.frames ≠ []) (error : SyntaxError)
    (h : AllOf Element.Accounted m.elements) :
    AllOf Element.Accounted (m.perform (Action.report error)).elements := by
  have begun : (m.begin .error (.some error)).elements = m.elements := elements_begin some _ _
  have inner : (m.begin .error (.some error)).frames.tail ≠ [] := by simpa using some
  obtain ⟨f, g, below, hm, -⟩ := close_frames inner
  refine allOf_close hm (begun ▸ h) (accounted_ended fun other => ?_)
  rw [frames_begin] at hm
  obtain ⟨rfl, -⟩ := List.cons.inj hm
  exact absurd rfl other

/-- An error node without a message begins where it is answered for. -/
theorem Accounted.recover (h : m.Accounted) (some : m.frames ≠ [])
    (answers : ∀ f ∈ m.frames.head?, f.Answers) (c : Control) (t : Token)
    (skipped : Option Skipped) : (m.perform (c.recoverActions t skipped)).Accounted := by
  have begins : (m.begin .error none).Accounted := h.begin some fun _ _ => answers
  rcases skipped with _ | _ | _
  · exact h
  all_goals
    simp only [Control.recoverActions]
    split_ifs
    · exact h
    · exact begins

/-- What is skipped after a missing brace is answered for by the report of it. -/
theorem Accounted.missing (h : m.Accounted) (some : m.frames ≠ []) (error : SyntaxError)
    (c : Control) (t : Token) (skipped : Option Skipped) :
    (m.perform (Action.report error ++ c.recoverActions t skipped)).Accounted := by
  obtain ⟨f, below, hm⟩ := List.exists_cons_of_ne_nil some
  obtain ⟨e, loud, node, frames⟩ := frames_report hm error
  have reported : (m.perform (Action.report error)).Accounted :=
    h.perform ⟨some, by simpa [Action.Enabled, Machine.act] using some, trivial⟩ rfl
  rw [perform_append]
  refine reported.recover (by simp [frames]) ?_ c t skipped
  rw [frames]
  rintro g ⟨rfl⟩ -
  exact ⟨e, List.mem_cons_self, loud, fun _ => node⟩

/-- Annotations without a declaration become an error node that holds the report of it. -/
theorem Accounted.dangling (h : m.Accounted) (inner : m.frames.tail ≠ []) (error : SyntaxError)
    (c : Control) (t : Token) (skipped : Option Skipped) :
    (m.perform (.becomeError none :: (Action.report error ++ c.recoverActions t skipped))).Accounted
      := by
  obtain ⟨f, below, hm⟩ := exists_frame inner
  have became :
      (m.becomeError none).frames = { f with kind := .error, error := none } :: below := by
    simp [Machine.becomeError, Machine.onTop, hm]
  obtain ⟨e, loud, -, frames⟩ := frames_report became error
  have some : (m.becomeError none).frames ≠ [] := by simp [became]
  have same : (m.becomeError none).elements = m.elements := elements_onTop fun _ => rfl
  have reported : ((m.becomeError none).perform (Action.report error)).Accounted := by
    refine ⟨?_, by simp [pending_report some], elements_report some error (same ▸ h.elements)⟩
    have stacked := h.frames
    rw [hm] at stacked
    rw [frames]
    exact stacked.change (fun other => absurd rfl other) fun mute => absurd mute.2.2.1 loud
  rw [perform_cons, perform_append]
  refine reported.recover (by simp [frames]) ?_ c t skipped
  rw [frames]
  rintro g ⟨rfl⟩ other
  exact absurd rfl other

/-- A type with a question mark behind it is put into a node with that, and reports what it has to
report from there. -/
theorem Accounted.nullable (h : m.Accounted) (enabled : (Action.wrapLast .nullableType).Enabled m)
    {t : Token} (proper : t.kind ≠ .error) (other : ∀ k ∈ m.kinds.head?, k.isHost = false)
    (last : ∀ f ∈ m.frames.head?, ∀ e ∈ f.children.head?, ¬ e.Mute) :
    (m.perform [.wrapLast .nullableType, .take t, .close]).Accounted := by
  obtain ⟨_, f, top, l, inside, others, hc, _⟩ := enabled
  obtain ⟨below, hm⟩ : ∃ below, m.frames = f :: below := List.head?_eq_some_iff.mp top
  have whole : .node l inside ∈ f.children.head? := by simp [hc]
  let type : Frame :=
    { kind := .nullableType, children := .leaf t :: (m.pending.reverse ++ [.node l inside]) }
  let n := (m.wrapLast .nullableType).take t
  have hn : n.frames = type :: { f with children := others } :: below := by
    simp [n, type, Machine.take, Machine.wrapLast, Machine.flush, Machine.onTop, hm, hc]
  have accounted : type.Accounted := fun _ => Element.accountedIn_of_not_mute (by
    simpa [type, or_imp, forall_and, Element.mute_leaf, proper]
      using ⟨h.pending, last f top _ whole⟩)
  have elements : AllOf Element.Accounted n.elements := by
    rw [elements_take (by simp [Machine.wrapLast, hm, hc]), elements_wrapLast hm (by simp [hc])]
    exact allOf_leaf h.elements t
  have stacked := h.frames
  rw [hm] at stacked
  have mute : ¬ (n.ended type).Mute := fun mute => by
    have error : type.kind = .error := (mute_of_ended accounted mute).1
    contradiction
  have loud (report : ¬ (Element.node l inside).All Silent) : ¬ (n.ended type).All Silent :=
    not_silent_ended (.inr ⟨_, by simp [type], report⟩)
  change n.close.Accounted
  refine ⟨?_, by simp [n, Machine.close, hn], allOf_close hn elements (accounted_ended accounted)⟩
  have frames : n.close.frames = { f with children := n.ended type :: others } :: below := by
    simp [Machine.close, ended, hn]
  rw [frames]
  refine stacked.change (fun kind => ?_) fun silent => ⟨silent.1, silent.2.1, ?_⟩
  · have old := stacked.accounted f List.mem_cons_self kind
    rw [hc] at old
    exact old.replace (other f.kind (by simp [kinds, hm])) (by simp [ended]) mute loud
  · obtain ⟨⟨-, within⟩, rest⟩ := silent.2.2
    rw [hc]
    exact ⟨Element.allOf_iff.mp within _ (by simp [type]), rest⟩

end Machine

end AvroIdl
