import AvroIdl.Proofs.Parser.Likeness

/-!
# Statements in their places

A statement is read in the same way wherever it stands. `Machine.within` puts a parser that reads a
statement alone into a place, with open nodes below its own and goals behind its own:

* `Machine.step_within`: a step in the place is the step alone, put into the place;
* `Machine.statement_reaches`: what is read alone is read in the place, and what it is becomes the
  newest child there.
-/

namespace AvroIdl

namespace Frame

/-- The open nodes with one more child in the innermost of them. -/
def push (e : Element) : List Frame → List Frame
  | [] => []
  | f :: below => { f with children := e :: f.children } :: below

/-- Open nodes put upon others: what the outermost of them holds goes into `f`. -/
def onto (f : Frame) (below : List Frame) : List Frame → List Frame
  | [] => f :: below
  | [d] => { f with children := d.children ++ f.children } :: below
  | g :: h :: rest => g :: onto f below (h :: rest)

end Frame

/-- Only the symbols of an enum depend on whether the newest child is a comma. -/
theorem Control.step_comma {c : Control} (h : c.goals.head? ≠ some .enumSymbols) (t : Token)
    (comma comma' : Bool) :
    c.step comma t = c.step comma' t ∧ c.actions comma t = c.actions comma' t := by
  obtain ⟨goals, ok, taken, blocks⟩ := c
  cases goals with
  | nil => exact ⟨rfl, rfl⟩
  | cons g rest =>
    cases ok with
    | false => exact ⟨rfl, rfl⟩
    | true =>
      cases g with
      | enumSymbols => exact absurd rfl h
      | skip skipped any => cases skipped <;> exact ⟨rfl, rfl⟩
      | _ => exact ⟨rfl, rfl⟩

namespace Machine

section Within

variable (f : Frame) (below : List Frame) (behind : List Goal)

/-- The parser in a place, with the open nodes `f` and `below` around what it reads, and the goals
`behind` after its own. -/
def within (m : Machine) : Machine :=
  { m with frames := Frame.onto f below m.frames, goals := m.goals ++ behind }

@[simp] theorem control_within (m : Machine) :
    (m.within f below behind).control = m.control.under behind := rfl

theorem flush_within {m : Machine} (some : m.frames ≠ []) :
    (m.within f below behind).flush = m.flush.within f below behind := by
  rcases hm : m.frames with _ | ⟨g, _ | ⟨h, rest⟩⟩
  · exact absurd hm some
  · simp [within, flush, onTop, hm, Frame.onto]
  · simp [within, flush, onTop, hm, Frame.onto]

/-- Changes of the innermost node are the same in the place, if it is not the outermost one. -/
theorem onTop_within {m : Machine} (inner : m.frames.tail ≠ []) (change : Frame → Frame) :
    (m.within f below behind).onTop change = (m.onTop change).within f below behind := by
  rcases hm : m.frames with _ | ⟨g, _ | ⟨h, rest⟩⟩
  · simp [hm] at inner
  · simp [hm] at inner
  · simp [within, onTop, hm, Frame.onto]

theorem take_within {m : Machine} (inner : m.frames.tail ≠ []) (t : Token) :
    (m.within f below behind).take t = (m.take t).within f below behind := by
  have some : m.frames ≠ [] := fun none => inner (by rw [none]; rfl)
  have inner' : m.flush.frames.tail ≠ [] := by simpa using inner
  simp only [take, flush_within f below behind some, onTop_within f below behind inner']
  rfl

/-- What can be done to the tree alone can be done in the place, with the same result there. -/
theorem act_within {m : Machine} {a : Action} (enabled : a.Enabled m) :
    (m.within f below behind).act a = (m.act a).within f below behind := by
  have outer (inner : m.frames.tail ≠ []) : m.frames ≠ [] := fun none => inner (by rw [none]; rfl)
  cases a with
  | begin kind error =>
    replace enabled : m.frames ≠ [] := enabled
    have some : m.flush.frames ≠ [] := by simpa using enabled
    obtain ⟨g, rest, hm⟩ := List.exists_cons_of_ne_nil some
    simp only [act, begin, flush_within f below behind enabled]
    simp [within, hm, Frame.onto]
  | become kind => exact onTop_within f below behind enabled.2.1 _
  | becomeError error => exact onTop_within f below behind enabled.1 _
  | wrapLast kind =>
    obtain ⟨inner, -⟩ := enabled
    rcases hm : m.frames with _ | ⟨g, _ | ⟨h, rest⟩⟩
    · simp [hm] at inner
    · simp [hm] at inner
    · cases hc : g.children <;> simp [act, wrapLast, within, hm, hc, Frame.onto]
  | take t => exact take_within f below behind enabled t
  | takeName t =>
    replace enabled : m.frames.tail ≠ [] := enabled.1
    have inner' : m.flush.frames.tail ≠ [] := by simpa using enabled
    simp only [act, takeName, flush_within f below behind (outer enabled),
      onTop_within f below behind inner']
    exact take_within f below behind (by simpa using inner') t
  | close =>
    rcases hm : m.frames with _ | ⟨g, _ | ⟨h, _ | ⟨h', rest⟩⟩⟩
    · simp [Action.Enabled, hm] at enabled
    · simp [Action.Enabled, hm] at enabled
    · simp [act, close, within, hm, Frame.onto]
    · simp [act, close, within, hm, Frame.onto]

theorem perform_within {m : Machine} {actions : List Action} (performs : m.Performs actions) :
    (m.within f below behind).perform actions = (m.perform actions).within f below behind := by
  induction actions generalizing m with
  | nil => rfl
  | cons a rest ih =>
    rw [perform_cons, perform_cons, act_within f below behind performs.1, ih performs.2]

theorem receive_within (m : Machine) (l : Lexeme) :
    (m.within f below behind).receive l = (m.receive l).within f below behind := by
  have held (m : Machine) (t : Token) :
      (m.within f below behind).hold t = (m.hold t).within f below behind := by
    simp only [hold]
    cases t.error <;> rfl
  unfold receive
  induction l.leading generalizing m with
  | nil => rfl
  | cons t rest ih => rw [List.foldl_cons, List.foldl_cons, held, ih]

/-- In an inner node the newest child is the same in the place. -/
theorem afterComma_within {m : Machine} (inner : m.frames.tail ≠ []) :
    (m.within f below behind).afterComma = m.afterComma := by
  rcases hm : m.frames with _ | ⟨⟨kind, name, error, children⟩, _ | ⟨h, rest⟩⟩
  · simp [hm] at inner
  · simp [hm] at inner
  · rcases children with _ | ⟨_ | _, _⟩ <;> simp [afterComma, within, hm, Frame.onto]

/-- The symbols of an enum stand in an inner node. -/
theorem Aligned.inner_of_symbols {origin : Origin} {base : Body} {m : Machine}
    (aligned : m.Aligned origin base) (symbols : m.goals.head? = some .enumSymbols) :
    m.frames.tail ≠ [] := by
  have nested := aligned.nested
  obtain ⟨rest, hg⟩ := List.head?_eq_some_iff.mp symbols
  rw [hg] at nested
  rcases hm : m.frames with _ | ⟨g, under⟩
  · simp [hm, Nested] at nested
  · rw [hm] at nested
    exact nested.1

/-- A step in a place is the step alone, put into the place. -/
theorem step_within {origin : Origin} {base : Body} {m : Machine} (aligned : m.Aligned origin base)
    (todo : m.goals ≠ []) (t : Token) :
    (m.within f below behind).step t = (m.step t).within f below behind := by
  have same : m.control.step (m.within f below behind).afterComma t = m.control.step m.afterComma t ∧
      m.control.actions (m.within f below behind).afterComma t =
        m.control.actions m.afterComma t := by
    by_cases symbols : m.goals.head? = some .enumSymbols
    · rw [afterComma_within f below behind (aligned.inner_of_symbols symbols)]
      exact ⟨rfl, rfl⟩
    · exact Control.step_comma symbols t _ _
  rw [step_eq, step_eq, control_within, Control.step_under behind todo,
    Control.actions_under behind todo, same.1, same.2,
    perform_within f below behind (aligned.performs t)]
  rfl

open Reading

theorem next_within {base : Body} {r r' : Reading} (next : Next r r')
    (aligned : r.machine.Aligned .any base) :
    Next ⟨r.machine.within f below behind, r.token, r.rest⟩
      ⟨r'.machine.within f below behind, r'.token, r'.rest⟩ := by
  cases next with
  | @stay m t rest some stays =>
    have step := step_within f below behind (m := m) aligned some t
    have placed : Next ⟨m.within f below behind, t, rest⟩
        ⟨(m.within f below behind).step t, t, rest⟩ := by
      refine .stay (by simp [within, some]) ?_
      rw [step]
      exact stays
    rwa [step] at placed
  | @move m t l rest takes =>
    have some : m.goals ≠ [] := by
      intro none
      have : m.step t = m := by simp [Machine.step, none]
      rw [this] at takes
      omega
    have step := step_within f below behind (m := m) aligned some t
    have placed : Next ⟨m.within f below behind, t, l :: rest⟩
        (.start ((m.within f below behind).step t) l rest) := by
      refine .move ?_
      rw [step]
      exact takes
    rw [step, Reading.start, receive_within] at placed
    exact placed

theorem Aligned.reaches {base : Body} {r r' : Reading} (way : Reaches r r')
    (aligned : r.machine.Aligned .any base) : r'.machine.Aligned .any base :=
  way.invariant (fun _ t h => h.step t fun _ _ _ => trivial) (fun _ l h => h.receive l) aligned

/-- What is read alone is read in the place. -/
theorem reaches_within {base : Body} {r r' : Reading} (way : Reaches r r')
    (aligned : r.machine.Aligned .any base) :
    Reaches ⟨r.machine.within f below behind, r.token, r.rest⟩
      ⟨r'.machine.within f below behind, r'.token, r'.rest⟩ := by
  induction way with
  | refl => exact .refl
  | tail before next ih =>
    exact ih.tail (next_within f below behind next (aligned.reaches before))

end Within

/-! ## The beginning of a statement -/

@[simp] theorem flush_flush (m : Machine) : m.flush.flush = m.flush := by
  cases hm : m.frames <;> simp [flush, onTop, hm]

/-- A statement begins with a node, and so what is pending goes before it. -/
theorem step_flush {m : Machine} {body : Body} {rest : List Goal}
    (hg : m.goals = .item body :: rest) (ok : m.ok = true) (t : Token) :
    m.flush.step t = m.step t := by
  have begins : ∃ kind error others,
      m.control.actions m.afterComma t = .begin kind error :: others := by
    simp only [Control.actions, show m.control.goals = _ from hg, show m.control.ok = true from ok,
      if_true, Control.workActions]
    cases body <;> simp only [Action.item] <;> (try split_ifs) <;> exact ⟨_, _, _, rfl⟩
  have same := Control.step_comma (c := m.control)
    (by simp [show m.control.goals = _ from hg]) t m.flush.afterComma m.afterComma
  obtain ⟨kind, error, others, actions⟩ := begins
  rw [step_eq, step_eq, control_flush, same.1, same.2, actions, perform_cons, perform_cons]
  simp only [act, begin, flush_flush]

open Reading

theorem next_flush {m : Machine} {body : Body} {goals : List Goal}
    (hg : m.goals = .item body :: goals) (ok : m.ok = true) {t : Token} {rest : List Lexeme}
    {r : Reading} (next : Next ⟨m.flush, t, rest⟩ r) : Next ⟨m, t, rest⟩ r := by
  have step := step_flush hg ok t
  have taken : m.flush.taken = m.taken := congrArg Control.taken m.control_flush
  generalize hm : m.flush = n at next
  cases next with
  | stay some stays =>
    rw [← hm, step] at stays ⊢
    exact .stay (by simp [hg]) (stays.trans taken)
  | move takes =>
    rw [← hm, step] at takes ⊢
    exact .move (by omega)

/-- A statement alone, with the numbers of another parser. -/
def alone (m : Machine) (body : Body) : Machine :=
  { m with goals := [.item body], frames := [{ kind := .document }], pending := [] }

theorem alone_within {m : Machine} {body : Body} {goals : List Goal} {f : Frame} {below : List Frame}
    (hg : m.goals = .item body :: goals) (hm : m.flush.frames = f :: below) :
    (m.alone body).within f below goals = m.flush := by
  obtain ⟨arena, generation, frames, pending, goals', ok, taken, blocks⟩ := m
  obtain rfl : goals' = .item body :: goals := hg
  cases frames with
  | nil => simp [flush, onTop] at hm
  | cons g rest =>
    simp only [flush, onTop, List.cons.injEq] at hm ⊢
    obtain ⟨rfl, rfl⟩ := hm
    rfl

theorem aligned_alone (m : Machine) (body : Body) : (m.alone body).Aligned .any body := by
  obtain ⟨nested, tucked, -⟩ : (start m.arena m.generation m.blocks [.item body]).Aligned .any body :=
    aligned_start (.statement body) ..
  exact ⟨nested, tucked, fun _ null => by simp [alone] at null⟩

/-- A parser that is to read a statement alone looks like every other with as many bodies around. -/
theorem alike_alone {m : Machine} (ok : m.ok = true) (arena : Arena) (generation : UInt64)
    (body : Body) :
    Alike 0 Element.form (start arena generation m.blocks [.item body]) (m.alone body) :=
  ⟨⟨rfl, rfl⟩, by simp [Control.norm, control, start, alone, ok, Goal.since], Nat.zero_le _⟩

/-- A parser that looks like one with all in the outermost node has all there. -/
theorem Resembles.one_frame {m m' : Machine} (h : Resembles Element.form m m') {d : Frame}
    {e : Element} (hm : m.frames = [d]) (read : m.contents = [e]) :
    ∃ d' e', m'.frames = [d'] ∧ d'.children = [e'] ∧ e.form = e'.form := by
  obtain ⟨d', rest, hm', same, others⟩ := h.cons hm
  obtain rfl : rest = [] := List.map_eq_nil_iff.mp others.symm
  have children : d.children = [e] := by simpa [contents, hm] using read
  have seen := (Frame.seen_eq_iff.mp same).2.2.2
  rw [children, List.map_singleton] at seen
  obtain ⟨e', one, first⟩ := List.map_eq_singleton_iff.mp seen.symm
  exact ⟨d', e', hm', one, first.symm⟩

/-- What is read alone is read in every place with as many bodies around it, and becomes the newest
child there. -/
theorem statement_reaches {m last : Machine} {body : Body} {goals : List Goal} {t t' : Token}
    {rest rest' : List Lexeme} {e : Element} {arena : Arena} {generation : UInt64}
    (hg : m.goals = .item body :: goals) (ok : m.ok = true) (inside : m.frames ≠ [])
    (way : Reaches ⟨start arena generation m.blocks [.item body], t, rest⟩ ⟨last, t', rest'⟩)
    (done : last.goals = []) (read : last.contents = [e]) :
    ∃ n e', Reaches ⟨m, t, rest⟩ ⟨n, t', rest'⟩ ∧ n.goals = goals ∧
      n.frames = Frame.push e' m.flush.frames ∧ e.form = e'.form ∧
      last.pending.map Element.form = n.pending.map Element.form := by
  obtain ⟨d, hd, -⟩ := (Aligned.reaches way (aligned_start (.statement body) ..)).one_frame done
  obtain ⟨last', way', alike⟩ := (alike_alone ok arena generation body).reaches
    (Element.view_form 0) way
  obtain ⟨d', e', hd', one, same⟩ := alike.built.one_frame hd read
  obtain ⟨f, below, hf⟩ := List.exists_cons_of_ne_nil (show m.flush.frames ≠ [] by simpa using inside)
  have placed := reaches_within f below goals way' (m.aligned_alone body)
  have done' : last'.goals = [] := alike.goals_eq_nil.mp done
  refine ⟨last'.within f below goals, e', ?_, by simp [within, done'], ?_, same,
    alike.built.pending⟩
  · rw [alone_within hg hf] at placed
    -- The statement is still to be read at first and has been read at last.
    rcases placed.cases_head with same | ⟨r, next, more⟩
    · have stays : m.flush.goals = (last'.within f below goals).goals :=
        congrArg (fun r => r.machine.goals) same
      rw [show m.flush.goals = m.goals from congrArg Control.goals m.control_flush, hg] at stays
      simp [within, done'] at stays
    · exact .head (next_flush hg ok next) more
  · simp [within, hd', Frame.onto, one, hf, Frame.push]

end Machine

end AvroIdl
