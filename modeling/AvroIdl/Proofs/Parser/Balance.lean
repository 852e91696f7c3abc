import AvroIdl.Proofs.Parser.Recovery
import AvroIdl.Proofs.Parser.Reports

/-!
# Balance

The parser reaches for the innermost open node, for the newest child of it, and for the bracket that
closes a group which is skipped. Whatever the text is, all of them are there.

* `Control.depth_work`: a goal leaves as many nodes open as it leaves goals that end one;
* `Reading.Returns.tail_eq`: so the goals behind it find the open nodes that it found;
* `Control.provides_work`: what stands before a question mark is a type, and a group has a bracket
  that closes it;
* `Reading.in_range`: nothing that the parser reaches for is missing.
-/

namespace AvroIdl

namespace Action

/-- The number of nodes that are open inside a certain one, after an action that does not end that
one. -/
def level (d : Nat) : Action → Option Nat
  | .begin _ _ | .wrapLast _ => some (d + 1)
  | .close => if d = 0 then none else some (d - 1)
  | _ => some d

/-- The number of nodes that are open inside a certain one, after actions that do not end that one. -/
def depth : Nat → List Action → Option Nat
  | d, [] => some d
  | d, a :: rest => (a.level d).bind fun d => depth d rest

theorem depth_append (d : Nat) (as bs : List Action) :
    depth d (as ++ bs) = (depth d as).bind fun d => depth d bs := by
  induction as generalizing d with
  | nil => rfl
  | cons a rest ih => simp only [List.cons_append, depth, ih, Option.bind_assoc]

@[simp] theorem depth_report (d : Nat) (e : SyntaxError) : depth d (report e) = some d := by
  simp [report, depth, level]

end Action

namespace Control

/-- As many nodes are left open by some actions as there are new goals that end one. -/
def Level (d : Nat) (actions : List Action) (goals rest : List Goal) : Prop :=
  ∃ new, goals = new ++ rest ∧ Action.depth d actions = some (d + new.count .close)

theorem depth_recover (c : Control) (t : Token) (skipped : Option Skipped) (d : Nat) :
    Level d (c.recoverActions t skipped) (c.recover t skipped).goals c.goals := by
  rcases skipped with _ | _ | _
  · exact ⟨[], rfl, rfl⟩
  all_goals
    simp only [recover, recoverActions]
    split_ifs
    · exact ⟨[], rfl, rfl⟩
    · exact ⟨_, rfl, rfl⟩

theorem depth_openBrace (c : Control) (t : Token) {inside : List Goal}
    (none : inside.count .close = 0) (d : Nat) :
    Level d (c.openBraceActions t) (c.openBrace t inside).goals c.goals := by
  simp only [openBrace, openBraceActions]
  split_ifs
  · exact ⟨inside, rfl, by rw [none]; rfl⟩
  · obtain ⟨new, goals, depth⟩ := c.depth_recover t (some .statement) d
    exact ⟨new, goals, by simpa [Action.depth_append, Action.expected] using depth⟩

theorem depth_declares {c after : Control} {t : Token} {body : Body} {actions : List Action}
    (h : c.Declares t body after actions) (d : Nat) : Level d actions after.goals c.goals := by
  cases h with
  | dangling =>
    obtain ⟨new, goals, depth⟩ := c.depth_recover t (some .statement) d
    exact ⟨new, goals, by simpa [Action.depth, Action.depth_append, Action.level] using depth⟩
  | _ => exact ⟨_, rfl, rfl⟩

/-- However it goes, a goal leaves as many nodes open as it leaves goals that end one. -/
theorem depth_work (c : Control) (comma : Bool) (t : Token) {g : Goal} (hg : g ≠ .close) (d : Nat) :
    Level d (c.workActions comma t g) (c.work comma t g).goals c.goals := by
  cases g with
  | close => exact absurd rfl hg
  | item body =>
    cases body <;> simp only [work, workActions, item, Action.item] <;> (try split_ifs) <;>
      exact ⟨_, rfl, rfl⟩
  | declaration body => exact depth_declares (c.declares t body) d
  | enumBody => exact c.depth_openBrace t rfl d
  | block body =>
    simp only [work, workActions]
    split_ifs with curl
    · simp only [openBrace, openBraceActions, curl, if_true]
      exact ⟨_, rfl, rfl⟩
    · exact c.depth_openBrace t rfl d
  | group skipped closers =>
    simp only [work, workActions, group]
    cases t.closer? <;> cases closers.tail <;> dsimp only <;> split_ifs <;>
      first | exact ⟨[], rfl, rfl⟩ | exact ⟨_, rfl, rfl⟩
  | skip skipped any =>
    cases skipped <;> simp only [work, workActions, skipOne] <;> split_ifs <;> (try split) <;>
      first | exact ⟨[], rfl, rfl⟩ | exact ⟨_, rfl, rfl⟩
  | _ =>
    simp only [work, workActions, typeBody, Action.typeBody, Action.enumSymbols, Action.json,
      Action.mark, Action.separator, Action.expected, Action.report]
    (try split_ifs) <;> first | exact ⟨[], rfl, rfl⟩ | exact ⟨_, rfl, rfl⟩

theorem depth_unwind (c : Control) (t : Token) {g : Goal} (hg : g ≠ .close) (d : Nat) :
    Level d (c.unwindActions t g) (c.unwind t g).goals c.goals := by
  cases g with
  | close => exact absurd rfl hg
  | recover skipped =>
    obtain ⟨new, goals, depth⟩ := depth_recover { c with ok := true } t skipped d
    exact ⟨new, goals, by rcases skipped with _ | _ | _ <;> exact depth⟩
  | _ => exact ⟨[], rfl, rfl⟩

/-- A step leaves as many nodes open as it leaves goals that end one, and ends a node if that is the
goal. -/
theorem depth_step {c : Control} {g : Goal} {rest : List Goal} (goals : c.goals = g :: rest)
    (comma : Bool) (t : Token) (d : Nat) :
    ∃ new, (c.step comma t).goals = new ++ rest ∧
      Action.depth (d + [g].count .close) (c.actions comma t) = some (d + new.count .close) := by
  obtain ⟨_, ok, taken, blocks⟩ := c
  obtain rfl := goals
  by_cases close : g = .close
  · subst close
    cases ok <;> exact ⟨[], rfl, rfl⟩
  · rw [List.count_eq_zero_of_not_mem (by simpa using Ne.symm close)]
    cases ok with
    | false => exact depth_unwind ⟨rest, false, taken, blocks⟩ t close d
    | true => exact depth_work ⟨rest, true, taken, blocks⟩ comma t close d

end Control

/-! ## The open nodes around a goal -/

namespace Machine

variable {m : Machine}

/-- An action leaves the nodes below those that it deals with as they are. -/
theorem tail_act {a : Action} {d d' : Nat} (enabled : a.Enabled m) (level : a.level d = some d') :
    (m.act a).frames.tail.drop d' = m.frames.tail.drop d := by
  cases a with
  | begin kind error =>
    obtain rfl : d + 1 = d' := Option.some.inj level
    rw [act, frames_begin, List.tail_cons, ← m.tail_flush, List.drop_tail]
  | wrapLast kind =>
    obtain rfl : d + 1 = d' := Option.some.inj level
    obtain ⟨_, f, top, l, children, others, hc, _⟩ := enabled
    obtain ⟨below, hm⟩ : ∃ below, m.frames = f :: below := List.head?_eq_some_iff.mp top
    simp [act, wrapLast, hm, hc]
  | close =>
    obtain ⟨f, g, below, hm, closed⟩ := close_frames enabled
    obtain ⟨inner, rfl⟩ : d ≠ 0 ∧ d - 1 = d' := by simpa [Action.level] using level
    obtain ⟨d, rfl⟩ := Nat.exists_eq_succ_of_ne_zero inner
    rw [act, closed, hm]
    rfl
  | become kind | becomeError error | take t | takeName t =>
    obtain rfl : d = d' := Option.some.inj level
    simp [act]

theorem tail_perform {actions : List Action} {d d' : Nat} (performs : m.Performs actions)
    (depth : Action.depth d actions = some d') :
    (m.perform actions).frames.tail.drop d' = m.frames.tail.drop d := by
  induction actions generalizing m d with
  | nil =>
    obtain rfl : d = d' := Option.some.inj depth
    rfl
  | cons a rest ih =>
    obtain ⟨d₁, level, depth⟩ := Option.bind_eq_some_iff.mp depth
    rw [perform_cons, ih performs.2 depth, tail_act performs.1 level]

/-- As long as goals wait, the open nodes around them stay, whatever is done before. -/
theorem Aligned.tail_step {origin : Origin} {base : Body} (h : m.Aligned origin base)
    {inner rest : List Goal} (goals : m.goals = inner ++ rest) (some : inner ≠ []) (t : Token) :
    ∃ inner', (m.step t).goals = inner' ++ rest ∧
      (m.step t).frames.tail.drop (inner'.count .close) =
        m.frames.tail.drop (inner.count .close) := by
  obtain ⟨g, later, rfl⟩ := List.exists_cons_of_ne_nil some
  obtain ⟨new, after, depth⟩ :=
    Control.depth_step (c := m.control) goals m.afterComma t (later.count .close)
  refine ⟨new ++ later, ?_, ?_⟩
  · rw [step_eq]
    exact after.trans (List.append_assoc ..).symm
  · rw [step_eq, List.count_append, Nat.add_comm, ← List.singleton_append, List.count_append,
      Nat.add_comm ([g].count _)]
    exact tail_perform (h.performs t) depth

end Machine

namespace Reading

variable {r r' : Reading} {rest : List Goal}

/-- A way on which the goals `rest` wait until they are all that is left. -/
inductive Returns (rest : List Goal) : Reading → Reading → Prop
  | here {r : Reading} (goals : r.machine.goals = rest) : Returns rest r r
  | later {r r₁ r' : Reading} (waits : r.machine.goals ≠ rest) (next : Next r r₁)
    (returns : Returns rest r₁ r') : Returns rest r r'

/-- What waits is returned to. -/
theorem exists_returns {last : Reading} (way : Reaches r last) (done : last.machine.goals = [])
    (behind : rest <:+ r.machine.goals) : ∃ r', Returns rest r r' := by
  induction way using Relation.ReflTransGen.head_induction_on with
  | refl =>
    rw [done, List.suffix_nil] at behind
    exact ⟨last, .here (by rw [done, behind])⟩
  | @head r r₁ next _ ih =>
    by_cases here : r.machine.goals = rest
    · exact ⟨r, .here here⟩
    · obtain ⟨g, more, goals⟩ := List.exists_cons_of_ne_nil next.goals_ne_nil
      have later : rest <:+ more := by
        rw [goals] at behind here
        exact (List.suffix_cons_iff.mp behind).resolve_left (Ne.symm here)
      have step := Control.suffix_step (c := r.machine.control) goals r.machine.afterComma r.token
      rw [← Machine.control_step] at step
      obtain ⟨r', returns⟩ := ih (by rw [next.goals_eq]; exact later.trans step)
      exact ⟨r', .later here next returns⟩

theorem Returns.goals_eq (h : Returns rest r r') : r'.machine.goals = rest := by
  induction h with
  | here goals => exact goals
  | later _ _ _ ih => exact ih

theorem Returns.reaches (h : Returns rest r r') : Reaches r r' := by
  induction h with
  | here => exact .refl
  | later _ next _ ih => exact .head next ih

/-- The open nodes around what is read are the same after it as before. -/
theorem Returns.tail_eq {base : Body} {inner : List Goal} (h : Returns rest r r')
    (aligned : r.machine.Aligned .any base) (goals : r.machine.goals = inner ++ rest) :
    r'.machine.frames.tail = r.machine.frames.tail.drop (inner.count .close) := by
  induction h generalizing inner with
  | here same =>
    obtain rfl : inner = [] := by simpa [same] using goals
    rfl
  | @later r r₁ r' waits next _ ih =>
    have some : inner ≠ [] := by
      rintro rfl
      exact waits goals
    obtain ⟨inner', after, tail⟩ := aligned.tail_step goals some r.token
    have frames : r₁.machine.frames = (r.machine.step r.token).frames := by
      cases next with
      | stay => rfl
      | move => exact Machine.frames_receive ..
    rw [ih (aligned_next aligned next) (next.goals_eq.trans after), frames, tail]

end Reading

/-! ## Types before question marks, and brackets -/

/-- Goals find what they rely on when they are reached: a type that has just been read before a
question mark, and a bracket that closes a group. The kind of a node that is still to become a type
is not known. -/
def Goal.Provided : Bool → List Goal → List NodeKind → Prop
  | _, [], _ => True
  | known, .close :: rest, ks =>
    (known = true → rest.head? = some .nullable → ∃ k ∈ ks.head?, k.isType = true) ∧
      Provided true rest ks.tail
  | _, .typeBody :: rest, ks => Provided false rest ks
  | _, .group _ closers :: rest, ks => closers ≠ [] ∧ Provided true rest ks
  | _, _ :: rest, ks => Provided true rest ks

theorem Goal.Provided.known {goals : List Goal} {ks : List NodeKind} (h : Provided true goals ks)
    (known : Bool) : Provided known goals ks := by
  cases goals with
  | nil => trivial
  | cons g rest =>
    cases g with
    | close => exact ⟨fun _ => h.1 rfl, h.2⟩
    | _ => exact h

namespace Control

open Goal (Provided)

variable {c : Control} {ks : List NodeKind}

/-- What is left to do after some actions finds what it relies on. -/
def Provides (ks : List NodeKind) (actions : List Action) (after : Control) : Prop :=
  Provided after.ok after.goals (actions.foldl Action.onKinds ks)

theorem provides_recover (t : Token) (skipped : Option Skipped) (h : Provided true c.goals ks)
    (tucked : c.goals.head? ≠ some .nullable) :
    Provides ks (c.recoverActions t skipped) (c.recover t skipped) := by
  rcases skipped with _ | _ | _
  · exact h.known _
  all_goals
    simp only [recover, recoverActions]
    split_ifs
    · exact h.known _
    · simp [Provides, Action.onKinds, push, Provided, h, tucked]

theorem provides_openBrace (t : Token) {inside : List Goal} (h : Provided true c.goals ks)
    (tucked : c.goals.head? ≠ some .nullable) (within : Provided true (inside ++ c.goals) ks) :
    Provides ks (c.openBraceActions t) (c.openBrace t inside) := by
  have recovers := provides_recover t (some .statement) h tucked
  simp only [openBrace, openBraceActions]
  split_ifs
  · exact within.known _
  · simpa [Provides, Action.onKinds, Action.expected, Action.report] using recovers

theorem provides_declares {after : Control} {t : Token} {body : Body} {actions : List Action}
    {rest : List Goal} (declares : c.Declares t body after actions)
    (ends : c.goals = .close :: rest) (tucked : rest.head? ≠ some .nullable)
    (h : Provided true rest ks.tail) : Provides ks actions after := by
  have closes (kind : NodeKind) : Provided true c.goals (kind :: ks.tail) := by
    rw [ends]
    exact ⟨fun _ null => absurd null tucked, h⟩
  cases declares with
  | dangling =>
    have recovers := provides_recover t (some .statement) (closes .error) (by simp [ends])
    simpa [Provides, Action.onKinds, Action.report] using recovers
  | void => exact (closes .messageDecl).known _
  | message => exact (closes .messageDecl).known _
  | protocol | record | error | enum | fixed => exact (closes _).known _

theorem provides_work (comma : Bool) (t : Token) {g : Goal} (ok : c.ok = true)
    (h : Provided true (g :: c.goals) ks) (tucked : g ≠ .close → c.goals.head? ≠ some .nullable)
    (typeBody : g = .typeBody → ∃ rest, c.goals = .close :: rest)
    (declaration : ∀ body, g = .declaration body →
      ∃ rest, c.goals = .close :: rest ∧ rest.head? ≠ some .nullable) :
    Provides ks (c.workActions comma t g) (c.work comma t g) := by
  cases g with
  | close => exact h.2.known _
  | item body =>
    have closes (kind : NodeKind) : Provided true (.close :: c.goals) (kind :: ks) :=
      ⟨fun _ null => absurd null (tucked (by simp)), h⟩
    cases body <;> simp only [work, workActions, item, Action.item] <;> (try split_ifs) <;>
      exact (closes _).known _
  | declaration body =>
    obtain ⟨rest, ends, tucked⟩ := declaration body rfl
    replace h : Provided true c.goals ks := h
    rw [ends] at h
    exact provides_declares (c.declares t body) ends tucked h.2
  | typeBody =>
    obtain ⟨rest, ends⟩ := typeBody rfl
    replace h : Provided false c.goals ks := h
    rw [ends] at h
    simp only [work, workActions, Control.typeBody, Action.typeBody]
    split_ifs <;>
      simp [Provides, Action.onKinds, push, count, fail, Provided, NodeKind.isType, ends, h.2]
  | block body =>
    have tucked := tucked (by simp)
    replace h : Provided true c.goals ks := h
    have within : Provided true
      ([Goal.items body, .leaveBlock, .mark .closeCurl, .recover none] ++ c.goals) ks := h
    simp only [work, workActions]
    split_ifs with curl
    · simpa [openBrace, openBraceActions, curl, Provides, Action.onKinds, push, count] using
        within.known _
    · exact provides_openBrace t h tucked within
  | enumBody => exact provides_openBrace t h (tucked (by simp)) h
  | group skipped closers =>
    obtain ⟨some, h⟩ := h
    simp only [work, workActions, group]
    cases closer : t.closer? <;> cases tail : closers.tail <;> dsimp only <;> split_ifs <;>
      simp [Provides, Action.onKinds, push, count, Provided, h, some, ok]
  | skip skipped any =>
    replace h : Provided true c.goals ks := h
    cases skipped <;> simp only [work, workActions, skipOne] <;> split_ifs <;> (try split) <;>
      simp [Provides, Action.onKinds, push, count, Provided, h, h.known]
  | annotations | type | params | members =>
    replace h : Provided true c.goals ks := h
    simp only [work, workActions, Action.expected, Action.report]
    split_ifs <;> simp [Provides, Action.onKinds, push, count, fail, Provided, h, h.known]
  | _ =>
    have closes (kind : NodeKind) : Provided true (.close :: c.goals) (kind :: ks) :=
      ⟨fun _ null => absurd null (tucked (by simp)), h⟩
    simp only [work, workActions, Action.mark, Action.json, Action.separator, Action.enumSymbols,
      Action.expected]
    (try split_ifs) <;> first | exact (closes .error).2.known _ | exact (closes _).known _

theorem provides_unwind (t : Token) {g : Goal} (ok : c.ok = false)
    (h : Provided false (g :: c.goals) ks)
    (tucked : g ≠ .close → c.goals.head? ≠ some .nullable) :
    Provides ks (c.unwindActions t g) (c.unwind t g) := by
  cases g with
  | close => exact h.2.known _
  | recover skipped =>
    have same : c.recoverActions t skipped =
        ({ c with ok := true } : Control).recoverActions t skipped := by
      rcases skipped with _ | _ | _ <;> rfl
    rw [unwindActions, same]
    exact provides_recover (c := { c with ok := true }) t skipped h (tucked (by simp))
  | group skipped closers => exact h.2.known _
  | typeBody =>
    -- A type that is passed over gets no kind, but neither is a question mark looked for.
    rw [Provides, show (c.unwind t .typeBody).ok = false from ok]
    exact h
  | _ =>
    replace h : Provided true c.goals ks := h
    exact h.known _

end Control

/-! ## What a reading relies on -/

/-- What an action reaches for is there. The node that a question mark wraps is a type, and the last
node that was made in the arena. -/
def Action.InRange (m : Machine) : Action → Prop
  | .wrapLast _ => ∃ f ∈ m.frames.head?, ∃ l inside others,
    f.children = .node l inside :: others ∧ l.kind.isType = true ∧ l.id = m.arena.nodes
  | .close => 2 ≤ m.frames.length
  | _ => m.frames ≠ []

namespace Machine

variable {base : Body} {m : Machine}

/-- There is an open node for each one that is still to be ended, and the outermost. -/
theorem length_frames {origin : Origin} {goals : List Goal} {frames : List Frame}
    (h : Nested origin base goals frames) : frames.length = goals.count .close + 1 := by
  induction goals generalizing frames with
  | nil =>
    cases frames with
    | nil => simp [Nested] at h
    | cons f below => simp [h.2]
  | cons g rest ih =>
    by_cases close : g = .close
    · subst close
      obtain ⟨f, below, rfl⟩ := List.exists_cons_of_ne_nil h.frames_ne
      rw [List.length_cons, ih h.2, List.count_cons_self]
    · rw [ih (nested_tail close h), List.count_cons_of_ne close]

/-- A machine that has what its goals rely on. The bodies in braces around all that it reads are
counted as if the goals that leave them stood behind all others. -/
structure Equipped (base : Body) (blocks : Nat) (m : Machine) : Prop where
  aligned : m.Aligned .any base
  provided : Goal.Provided m.ok m.goals m.kinds
  /-- A question mark follows the last node that was made. -/
  newest : m.ok = true → m.goals.head? = some .nullable →
    (Action.wrapLast .nullableType).InRange m
  counts : (m.control.under (List.replicate blocks .leaveBlock)).Counts

/-- A question mark can follow only where a node has just ended. -/
theorem Aligned.step_of_nullable (h : m.Aligned .any base) {t : Token}
    (null : (m.step t).goals.head? = some .nullable) :
    ∃ rest, m.goals = .close :: rest ∧
      m.step t = m.close.resume { m.control with goals := rest } := by
  obtain ⟨arena, generation, frames, pending, goals, ok, taken, blocks⟩ := m
  cases goals with
  | nil => simp [Machine.step] at null
  | cons g rest =>
    by_cases close : g = .close
    · subst close
      refine ⟨rest, rfl, ?_⟩
      rw [step_eq]
      cases ok <;> rfl
    · have behind : Goal.Tucked false rest := by simpa [close] using h.tucked.2
      rw [step_eq] at null
      cases ok with
      | false =>
        exact absurd null (tucked_unwind (c := ⟨rest, false, taken, blocks⟩) t g behind).head?_ne
      | true =>
        exact absurd null (tucked_work (c := ⟨rest, true, taken, blocks⟩) _ t close behind).head?_ne

theorem Equipped.provided_step {blocks : Nat} (h : m.Equipped base blocks) (t : Token) :
    Goal.Provided (m.step t).ok (m.step t).goals (m.step t).kinds := by
  have performs := h.aligned.performs t
  have kinds := kinds_perform performs
  rw [step_eq]
  change Goal.Provided _ _ (m.perform _).kinds
  rw [kinds]
  obtain ⟨arena, generation, frames, pending, goals, ok, taken, blocks⟩ := m
  obtain ⟨⟨nested, tucked, -⟩, provided, -, -⟩ := h
  cases goals with
  | nil => trivial
  | cons g rest =>
    have behind (close : g ≠ .close) : rest.head? ≠ some .nullable := by
      have : Goal.Tucked false rest := by simpa [close] using tucked.2
      exact this.head?_ne
    cases ok with
    | false =>
      exact Control.provides_unwind (c := ⟨rest, false, taken, blocks⟩) t rfl provided behind
    | true =>
      obtain ⟨f, below, rfl⟩ := List.exists_cons_of_ne_nil nested.frames_ne
      refine Control.provides_work (c := ⟨rest, true, taken, blocks⟩) _ t rfl provided behind ?_ ?_
      · rintro rfl
        exact nested.1.2.2
      · rintro body rfl
        obtain ⟨-, -, rest', goals, begun⟩ := nested.1
        exact ⟨rest', goals, begun.2.1⟩

theorem Equipped.step {blocks : Nat} (h : m.Equipped base blocks) (t : Token) :
    (m.step t).Equipped base blocks := by
  refine ⟨h.aligned.step t fun _ _ _ => trivial, h.provided_step t, fun ok null => ?_, ?_⟩
  -- The node that has just ended took the next number, and no token was read since.
  · obtain ⟨rest, goals, eq⟩ := h.aligned.step_of_nullable null
    have provided := h.provided
    rw [eq] at ok null ⊢
    rw [goals, show m.ok = true from ok] at provided
    obtain ⟨k, top, type⟩ := provided.1 rfl null
    obtain ⟨f, g, below, before, after⟩ := close_frames (nested_end (goals ▸ h.aligned.nested)).1
    obtain rfl : f.kind = k := by simpa [kinds, before] using top
    refine ⟨{ g with children := m.ended f :: g.children }, by simp [resume, after], _, _,
      g.children, rfl, type, ?_⟩
    simp [resume, close, before, Arena.addNode, Arena.nextLabel]
  · rw [control_step]
    by_cases done : m.goals = []
    · rw [show m.control.step m.afterComma t = m.control by simp [Control.step, control, done]]
      exact h.counts
    · rw [← Control.step_under _ done]
      exact h.counts.step _ t

theorem Equipped.receive {blocks : Nat} (h : m.Equipped base blocks) (l : Lexeme)
    (other : m.goals.head? ≠ some .nullable) : (m.receive l).Equipped base blocks where
  aligned := h.aligned.receive l
  provided := by
    have kinds : (m.receive l).kinds = m.kinds := by rw [kinds, frames_receive, kinds]
    simpa [kinds] using h.provided
  newest _ null := absurd (by simpa using null) other
  counts := by simpa using h.counts

theorem equipped_start {goals : List Goal} (task : Goal.Task base goals) (arena : Arena)
    (generation : UInt64) (blocks : Nat) :
    (start arena generation blocks goals).Equipped base blocks := by
  refine ⟨aligned_start task arena generation blocks, ?_, ?_, ?_⟩ <;> cases task
  · simp [start, Goal.Provided]
  · simp [start, Goal.Provided]
  · simp [start]
  · simp [start]
  · exact ⟨by simp [start, control, Control.under], by simp [start, control, Control.under]⟩
  · exact ⟨by simp [start, control, Control.under], by simp [start, control, Control.under]⟩

end Machine

/-- Whether an action wraps the newest child. -/
def Action.wraps : Action → Bool
  | .wrapLast _ => true
  | _ => false

namespace Control

theorem wraps_recover (c : Control) (t : Token) (skipped : Option Skipped) :
    (c.recoverActions t skipped).any Action.wraps = false := by
  fun_cases recoverActions c t skipped <;> rfl

theorem wraps_declares {c after : Control} {t : Token} {body : Body} {actions : List Action}
    (h : c.Declares t body after actions) : actions.any Action.wraps = false := by
  cases h with
  | dangling => exact c.wraps_recover t (some .statement)
  | _ => rfl

theorem wraps_work (c : Control) (comma : Bool) (t : Token) {g : Goal} (other : g ≠ .nullable) :
    (c.workActions comma t g).any Action.wraps = false := by
  have skips := c.wraps_recover t (some .statement)
  cases g with
  | nullable => exact absurd rfl other
  | declaration body => exact wraps_declares (c.declares t body)
  | item body =>
    cases body <;> simp only [workActions, Action.item] <;> (try split_ifs) <;> rfl
  | skip skipped any => cases skipped <;> simp only [workActions] <;> split_ifs <;> rfl
  | _ =>
    simp only [workActions, openBraceActions, Action.mark, Action.enumSymbols, Action.json,
      Action.separator, Action.typeBody, Action.expected]
    (try split_ifs) <;> first | rfl | exact skips

/-- Only a question mark wraps the newest child, and before all else. -/
theorem wrapLast_mem {c : Control} {comma : Bool} {t : Token} {kind : NodeKind}
    (mem : .wrapLast kind ∈ c.actions comma t) :
    c.ok = true ∧ c.goals.head? = some .nullable ∧
      c.actions comma t = [.wrapLast .nullableType, .take t, .close] := by
  have wraps : (c.actions comma t).any Action.wraps = true := List.any_eq_true.mpr ⟨_, mem, rfl⟩
  obtain ⟨goals, ok, taken, blocks⟩ := c
  cases goals with
  | nil => contradiction
  | cons g rest =>
    cases ok with
    | false =>
      have none : (unwindActions ⟨rest, false, taken, blocks⟩ t g).any Action.wraps = false := by
        cases g with
        | recover skipped => exact wraps_recover _ t skipped
        | _ => rfl
      exact absurd wraps (by rw [actions]; simp [none])
    | true =>
      by_cases null : g = .nullable
      · subst null
        simp only [actions, workActions, if_true] at mem ⊢
        split_ifs at mem ⊢
        · exact ⟨trivial, rfl, rfl⟩
        · contradiction
      · have none := wraps_work ⟨rest, true, taken, blocks⟩ comma t null
        exact absurd wraps (by rw [actions]; simp [none])

end Control

/-- The groups among goals that find what they rely on have a bracket that closes them. -/
theorem Goal.Provided.closers_ne {known : Bool} {goals : List Goal} {ks : List NodeKind}
    (h : Provided known goals ks) {skipped : Skipped} {closers : List TokenKind}
    (mem : .group skipped closers ∈ goals) : closers ≠ [] := by
  induction goals generalizing known ks with
  | nil => simp at mem
  | cons g rest ih =>
    cases g with
    | group _ _ =>
      rcases List.mem_cons.mp mem with same | later
      · obtain ⟨-, rfl⟩ := Goal.group.inj same
        exact h.1
      · exact ih h.2 later
    | close => exact ih h.2 (by simpa using mem)
    | _ => exact ih (by exact h) (by simpa using mem)

/-- All that a step does to the tree finds what it reaches for. -/
theorem Machine.Equipped.in_range_actions {base : Body} {blocks : Nat} {m : Machine}
    (h : m.Equipped base blocks) {t : Token} {before after : List Action} {a : Action}
    (actions : m.control.actions m.afterComma t = before ++ a :: after) :
    a.InRange (m.perform before) := by
  have performs := h.aligned.performs t
  rw [actions, AvroIdl.performs_append] at performs
  have enabled := performs.2.1
  have outer (inner : (m.perform before).frames.tail ≠ []) : (m.perform before).frames ≠ [] :=
    fun none => inner (by rw [none]; rfl)
  cases a with
  | begin kind error => exact enabled
  | become kind => exact outer enabled.2.1
  | becomeError error => exact outer enabled.1
  | take t => exact outer enabled
  | takeName t => exact outer enabled.1
  | close =>
    obtain ⟨f, g, below, frames, -⟩ := close_frames enabled
    simp [Action.InRange, frames]
  | wrapLast kind =>
    have mem : .wrapLast kind ∈ m.control.actions m.afterComma t := by simp [actions]
    obtain ⟨ok, null, only⟩ := Control.wrapLast_mem mem
    rw [only] at actions
    cases before with
    | nil => exact h.newest ok null
    | cons b others =>
      obtain ⟨-, rest⟩ := List.cons.inj actions
      have : Action.wrapLast kind ∈ [Action.take t, .close] := by simp [rest]
      simp at this

namespace Reading

variable {base : Body} {blocks : Nat} {r r' : Reading}

theorem equipped_next (h : r.machine.Equipped base blocks) (next : Next r r') :
    r'.machine.Equipped base blocks := by
  cases next with
  | stay => exact h.step _
  | @move m t l rest takes =>
    -- The end of a node takes no token, so that no question mark is to be looked for here.
    refine (h.step t).receive l fun null => ?_
    obtain ⟨rest, -, eq⟩ := h.aligned.step_of_nullable null
    have stays : (m.step t).taken = m.taken := by
      dsimp only at eq
      rw [eq]
      rfl
    omega

theorem equipped_reaches (h : r.machine.Equipped base blocks) (way : Reaches r r') :
    r'.machine.Equipped base blocks := by
  induction way with
  | refl => exact h
  | tail _ next ih => exact equipped_next ih next

/-- Nothing that the parser reaches for at a place is missing, where `blocks` bodies in braces are
around all that it reads. -/
structure InRange (blocks : Nat) (r : Reading) : Prop where
  /-- Besides the outermost node, as many nodes are open as are still to be ended. -/
  frames : r.machine.frames.length = r.machine.goals.count .close + 1
  /-- As many bodies in braces are around as are still to be left. -/
  braces : r.machine.blocks = blocks + r.machine.goals.count .leaveBlock
  /-- A step does some things to the tree. -/
  step : r.machine.step r.token =
    (r.machine.perform (r.machine.control.actions r.machine.afterComma r.token)).resume
      (r.machine.control.step r.machine.afterComma r.token)
  /-- Each of them finds what it reaches for. -/
  actions : ∀ before a after,
    r.machine.control.actions r.machine.afterComma r.token = before ++ a :: after →
      a.InRange (r.machine.perform before)
  brackets : ∀ skipped closers, .group skipped closers ∈ r.machine.goals → closers ≠ []
  /-- What is read for a goal comes to an end, and leaves the open nodes and the braces around it as
  it found them. -/
  returns : ∀ g rest, r.machine.goals = g :: rest →
    (∃ r', Returns rest r r') ∧ ∀ r', Returns rest r r' →
      (g ≠ .close → r'.machine.frames.length = r.machine.frames.length ∧
        r'.machine.frames.tail = r.machine.frames.tail) ∧
      (g ≠ .leaveBlock → r'.machine.blocks = r.machine.blocks)

theorem blocks_eq (h : r.machine.Equipped base blocks) :
    r.machine.blocks = blocks + r.machine.goals.count .leaveBlock := by
  have counted := h.counts.blocks
  simp only [Control.under, List.count_append, List.count_replicate_self] at counted
  rw [Nat.add_comm]
  exact counted

theorem inRange_of_equipped (h : r.machine.Equipped base blocks) {last : Reading}
    (way : Reaches r last) (done : last.machine.goals = []) : r.InRange blocks where
  frames := Machine.length_frames h.aligned.nested
  braces := blocks_eq h
  step := Machine.step_eq ..
  actions _ _ _ := h.in_range_actions
  brackets _ _ := h.provided.closers_ne
  returns g rest goals := by
    refine ⟨exists_returns way done (goals ▸ List.suffix_cons g rest), fun r' returns => ?_⟩
    have there := equipped_reaches h returns.reaches
    refine ⟨fun other => ⟨?_, ?_⟩, fun other => ?_⟩
    · rw [Machine.length_frames there.aligned.nested, Machine.length_frames h.aligned.nested,
        returns.goals_eq, goals, List.count_cons_of_ne other]
    · have tail := returns.tail_eq h.aligned (show r.machine.goals = [g] ++ rest from goals)
      rwa [List.count_cons_of_ne other, List.count_nil] at tail
    · rw [blocks_eq there, blocks_eq h, returns.goals_eq, goals, List.count_cons_of_ne other]

/-- A way through a text on which nothing is missing that the parser reaches for. At its end only
the outermost node is open. -/
structure Safe (blocks : Nat) (first : Reading) (last : Machine) : Prop where
  inRange : ∀ r, Reaches first r → r.InRange blocks
  ends : ∃ t rest, Reaches first ⟨last, t, rest⟩
  done : last.goals = []
  frames : ∃ f, last.frames = [f] ∧ f.kind = .document
  braces : last.blocks = blocks

theorem safe_ofText {goals : List Goal} (task : Goal.Task base goals) (arena : Arena)
    (generation : UInt64) (blocks : Nat) (text : Bytes) :
    (ofText (Machine.start arena generation blocks goals) text).Safe blocks
      ((Machine.start arena generation blocks goals).run (lexemes text)) := by
  have first : (ofText (Machine.start arena generation blocks goals) text).machine.Equipped base
      blocks := by
    obtain ⟨l, rest, hl, -⟩ := lexemes_eq_cons text
    rw [ofText, hl]
    exact (Machine.equipped_start task ..).receive l (by cases task <;> simp [Machine.start])
  obtain ⟨t, rest, way, done⟩ := Machine.run_ofText (Machine.steady_start task ..) text
  have last := equipped_reaches first way
  refine ⟨fun r before => ?_, ⟨t, rest, way⟩, done, last.aligned.one_frame done, ?_⟩
  · exact inRange_of_equipped (equipped_reaches first before) (reaches_of_done before way done) done
  · have braces := blocks_eq last
    rwa [done, List.count_nil] at braces

end Reading

/-- The parser before the text of a statement that is read again. -/
def Node.reading (n : Node) (body : Body) (above : List Node) (arena : Arena) (generation : UInt64)
    (text : Bytes) : Reading :=
  .ofText (.start arena generation (above.countP fun a => a.kind.hasBlock) [.item body])
    (text.drop n.start)

/-- The parser never reaches for what is not there, whether it reads a document or one statement of
it again. -/
theorem Reading.in_range (arena : Arena) (generation : UInt64) (text : Bytes) :
    (document arena generation text).Safe 0 (documentEnd arena generation text) ∧
      ∀ (n : Node) (body : Body) (above : List Node),
        (n.reading body above arena generation text).Safe
          (above.countP fun a => a.kind.hasBlock) (n.rereadAs body above arena generation text) :=
  ⟨safe_ofText .document arena generation 0 text, fun n body _ =>
    safe_ofText (.statement body) arena generation _ (text.drop n.start)⟩

/-- The question mark behind the type of a field wraps the type. -/
theorem Reading.in_range_question :
    let n : Node := ⟨0, ⟨1, .fieldDecl, 1, 4, false, none, none⟩, []⟩
    ∃ r, Reaches (n.reading .record [] {} 1 "A?b;") r ∧ r.token.kind = .question ∧
      r.machine.goals.head? = some .nullable ∧
      (Action.wrapLast .nullableType).InRange r.machine := by
  intro n
  obtain ⟨-, statement⟩ := in_range {} 1 "A?b;"
  let first := n.reading .record [] {} 1 "A?b;"
  let mark : Lexeme := ⟨[], ⟨.question, "?", none⟩⟩
  have more : first.rest = mark :: first.rest.tail := by decide +kernel
  let m (k : Nat) := k.repeat (·.step first.token) first.machine
  have name : Reaches first ⟨m 3, first.token, first.rest⟩ :=
    .head (.stay (by decide +kernel) (by decide +kernel))
      (.head (.stay (by decide +kernel) (by decide +kernel))
        (.single (.stay (by decide +kernel) (by decide +kernel))))
  rw [more] at name
  have way : Reaches first ⟨((m 4).receive mark).step mark.token, mark.token, first.rest.tail⟩ :=
    (name.tail (.move (by decide +kernel))).tail (.stay (by decide +kernel) (by decide +kernel))
  have inRange := (statement n .record []).inRange _ way
  refine ⟨_, way, rfl, by decide +kernel, ?_⟩
  exact inRange.actions [] _ [.take mark.token, .close] (by decide +kernel)

end AvroIdl
