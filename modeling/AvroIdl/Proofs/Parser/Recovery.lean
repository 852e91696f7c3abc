import AvroIdl.Proofs.Parser.Loops
import AvroIdl.Proofs.Parser.Naming

/-!
# Recovery makes progress

Whatever the text is, the parser gets through it. A statement takes a token unless its body ends
there, so that the loops over statements and over the symbols of an enum end only at their
terminators. In particular the loop over the statements of a document ends at the end of the text,
and nothing is left for the sweep behind it.

* `Reading.Recovers`: what this says of one reading;
* `Machine.Blames.step`: the errors in the tree are those that the steps reported;
* `Tree.parse_recovers`: every reading on the way through a text recovers, and no tree reports a
  token that belongs to nothing.
-/

namespace AvroIdl

open Element (AllOf)

theorem Machine.control_step_cons {m : Machine} {g : Goal} {rest : List Goal}
    (goals : m.goals = g :: rest) (ok : m.ok = true) (t : Token) :
    (m.step t).control = Control.work ⟨rest, true, m.taken, m.blocks⟩ m.afterComma t g := by
  rw [control_step]
  simp [control, Control.step, goals, ok]

namespace Reading

variable {r r' : Reading} {rest : List Goal}

/-! ## Every reading -/

theorem Next.goals_eq (h : Next r r') : r'.machine.goals = (r.machine.step r.token).goals := by
  cases h with
  | stay => rfl
  | move => exact Machine.goals_receive ..

/-- What is put on a stack of goals comes off it again. -/
theorem exists_return {last : Reading} (way : Reaches r last) (done : last.machine.goals = [])
    (behind : rest <:+ r.machine.goals) : ∃ r', Reaches r r' ∧ r'.machine.goals = rest := by
  induction way using Relation.ReflTransGen.head_induction_on with
  | refl =>
    rw [done, List.suffix_nil] at behind
    exact ⟨last, .refl, by rw [done, behind]⟩
  | @head r r₁ next _ ih =>
    cases goals : r.machine.goals with
    | nil => exact absurd goals next.goals_ne_nil
    | cons g more =>
      rw [goals, List.suffix_cons_iff] at behind
      rcases behind with rfl | behind
      · exact ⟨r, .refl, goals⟩
      · have step := Control.suffix_step (c := r.machine.control) goals r.machine.afterComma r.token
        rw [← Machine.control_step] at step
        obtain ⟨r', way, back⟩ := ih (by rw [next.goals_eq]; exact behind.trans step)
        exact ⟨r', .head next way, back⟩

/-- A way on which the token in sight is taken takes it. -/
theorem lt_taken_of_advances {n : Nat} (advances : r.machine.control.Advances r.token n)
    (way : Reaches r r') (down : r'.machine.goals.length ≤ n) :
    r.machine.taken < r'.machine.taken := by
  obtain ⟨m, t, ls⟩ := r
  dsimp only at advances ⊢
  generalize same : m.control = c at advances
  induction advances generalizing m with
  | @intro c inside next ih =>
    subst same
    rcases way.cases_head with rfl | ⟨r₁, first, way⟩
    · exact absurd inside (Nat.not_lt.mpr down)
    · cases first with
      | stay _ stays =>
        have control := m.control_step t
        exact stays ▸ ih m.afterComma (by rw [← control]; exact stays) (m.step t) way control
      | move takes =>
        have := taken_le way
        simp only [start, Machine.taken_receive] at this
        omega

/-- What holds of the goals of every reading of a document. -/
structure Looping (r : Reading) : Prop where
  steady : r.machine.Steady
  counts : r.machine.control.Counts
  ordered : r.machine.control.Ordered
  loops : r.machine.control.Loops r.token
  grounded : r.machine.control.Grounded r.token

theorem Looping.next (h : r.Looping) (next : Next r r') : r'.Looping := by
  obtain ⟨steady, counts, ordered, loops, grounded⟩ := h
  cases next with
  | @stay m t ls _ stays =>
    have control := m.control_step t
    have stays : (m.control.step m.afterComma t).taken = m.control.taken := by
      rw [← control]; exact stays
    exact ⟨steady.step t, control ▸ counts.step _ t, control ▸ ordered.step _ t,
      control ▸ loops.stay ordered counts stays, control ▸ grounded.step steady loops _⟩
  | @move m t l ls takes =>
    have control := m.control_step t
    have takes' : (m.control.step m.afterComma t).taken = m.control.taken + 1 := by
      rw [← control]; exact takes
    have more : t.kind ≠ .eof := fun eof => by
      have stays : (m.step t).taken = m.taken := steady.taken_eof eof
      omega
    have control : ((m.step t).receive l).control = m.control.step m.afterComma t := by
      rw [Machine.control_receive, Machine.control_step]
    refine ⟨(steady.step t).receive l, ?_, ?_, ?_, ?_⟩
    all_goals simp only [start, control]
    · exact counts.step _ t
    · exact ordered.step _ t
    · exact .move counts takes' l.token
    · exact .inr ((grounded.step steady loops _).resolve_left more)

theorem looping_document {arena : Arena} {generation : UInt64} {text : Bytes}
    (way : Reaches (document arena generation text) r) : r.Looping := by
  induction way with
  | refl =>
    obtain ⟨l, ls, hl, -⟩ := lexemes_eq_cons text
    have first : document arena generation text = start
        (Machine.start arena generation 0 [.items .document, .leftovers]) l ls := by
      simp only [document, ofText, hl]
    have control : (document arena generation text).machine.control =
        ⟨[.items .document, .leftovers], true, 0, 0⟩ := by
      rw [first, start, Machine.control_receive]
      rfl
    refine ⟨(Machine.sound_ofText .document arena generation 0 text).1, counts_document .refl, ?_, ?_, ?_⟩
    · rw [control]
      exact ⟨by simp [Goal.precedes_iff], by simp, by simp⟩
    · rw [control]
      intro body n behind here
      simp [List.suffix_cons_iff] at here
    · rw [control]
      exact .inr ⟨[], _, rfl, .inl rfl⟩
  | tail _ next ih => exact ih.next next

/-- A body is never passed over after an error. -/
theorem Looping.ok (h : r.Looping) {g : Goal} (goals : r.machine.goals = g :: rest)
    (unguarded : Goal.guarded (g :: rest) = false) : r.machine.ok = true := by
  by_contra failed
  have guard := h.steady.guarded (Bool.eq_false_iff.mpr failed)
  rw [show r.machine.control.goals = _ from goals, unguarded] at guard
  contradiction

/-- A statement at a token that does not end its body takes a token. -/
theorem Looping.advances (h : r.Looping) {body : Body} (goals : r.machine.goals = .item body :: rest)
    (more : body.endsAt r.token = false) : r.machine.control.Advances r.token rest.length := by
  have ok := h.ok goals rfl
  have outermost : body = .document → r.machine.blocks = 0 := by
    rintro rfl
    exact h.ordered.blocks_eq_zero h.counts goals rfl
  have same : r.machine.control = ⟨.item body :: rest, true, r.machine.taken, r.machine.blocks⟩ := by
    rw [Machine.control, goals, ok]
  rw [same]
  exact Control.advances_item (Nat.le_refl _) more outermost

/-- What recovery promises of a reading: it gets on. -/
structure Recovers (r : Reading) : Prop where
  /-- A statement comes to its end, and takes a token unless its body ends before it. -/
  statement : ∀ body rest, r.machine.goals = .item body :: rest → body.endsAt r.token = false →
    (∃ r', Reaches r r' ∧ r'.machine.goals = rest) ∧
      ∀ r', Reaches r r' → r'.machine.goals = rest → r.machine.taken < r'.machine.taken
  /-- The statements of a body go on until it ends. -/
  items : ∀ body rest, r.machine.goals = .items body :: rest →
    if body.endsAt r.token then (r.machine.step r.token).goals = rest
    else ∃ n, (r.machine.step r.token).goals = .item body :: .moreItems body n :: rest
  /-- After a statement the next one is read. -/
  moreItems : ∀ body n rest, r.machine.goals = .moreItems body n :: rest →
    (r.machine.step r.token).goals = .items body :: rest
  /-- The symbols of an enum go on until they end, and each turn takes a token. -/
  symbols : ∀ rest, r.machine.goals = .enumSymbols :: rest →
    if r.token.endsSymbols r.machine.afterComma then (r.machine.step r.token).goals = rest
    else (r.machine.step r.token).taken = r.machine.taken + 1 ∧
      ((r.machine.step r.token).goals = .enumSymbols :: rest ∨
        (r.machine.step r.token).goals = .enumSeparator :: .enumSymbols :: rest)
  /-- After a symbol the next one is read. -/
  separator : ∀ rest, r.machine.goals = .enumSeparator :: .enumSymbols :: rest →
    (r.machine.step r.token).goals = .enumSymbols :: rest
  /-- Nothing is left behind the document. -/
  leftovers : ∀ rest, r.machine.goals = .leftovers :: rest → r.token.kind = .eof

theorem Looping.recovers (h : r.Looping) {last : Reading} (way : Reaches r last)
    (done : last.machine.goals = []) : r.Recovers where
  statement body rest goals more :=
    ⟨exists_return way done (goals ▸ List.suffix_cons _ rest), fun r' way back =>
      lt_taken_of_advances (h.advances goals more) way (Nat.le_of_eq (congrArg List.length back))⟩
  items body rest goals := by
    have step := Machine.control_step_cons goals (h.ok goals rfl) r.token
    rw [Control.work_items] at step
    split_ifs at step ⊢
    · exact congrArg Control.goals step
    · exact ⟨_, congrArg Control.goals step⟩
  moreItems body n rest goals := by
    have less : n < r.machine.taken := h.loops.lt_taken goals
    have step := Machine.control_step_cons goals (h.ok goals rfl) r.token
    simp only [Control.work, less, if_true] at step
    exact congrArg Control.goals step
  symbols rest goals := by
    have ok : r.machine.ok = true := h.ordered.symbols (by simp [Machine.control, goals])
    have step := Machine.control_step_cons goals ok r.token
    rw [Control.work_enumSymbols] at step
    split_ifs at step ⊢
    · exact congrArg Control.goals step
    · exact ⟨congrArg Control.taken step, .inr (congrArg Control.goals step)⟩
    · exact ⟨congrArg Control.taken step, .inl (congrArg Control.goals step)⟩
  separator rest goals := by
    have ok : r.machine.ok = true := h.ordered.symbols (by simp [Machine.control, goals])
    have step := Machine.control_step_cons goals ok r.token
    simp only [Control.work] at step
    split_ifs at step <;> exact congrArg Control.goals step
  leftovers rest goals := h.grounded.eof_of_leftovers h.ordered goals

end Reading

/-! ## The errors of a tree -/

/-- The error that an action puts into the tree. -/
def Action.error? : Action → Option SyntaxError
  | .begin _ error | .becomeError error => error
  | _ => none

/-- An action does not report a token that belongs to nothing. -/
def Action.Usual (a : Action) : Prop := ∀ e ∈ a.error?, e.code ≠ 2005

namespace Action

theorem usual_of_silent {a : Action} (silent : a.error? = none) : a.Usual := by
  simp [Usual, silent]

section

variable (kind : NodeKind) (what : Expected) (t : Token)

@[simp] theorem usual_begin : (Action.begin kind none).Usual := usual_of_silent rfl

@[simp] theorem usual_begin_expected : (Action.begin kind (some (.expected what t))).Usual := by
  cases what <;> simp [Usual, error?, SyntaxError.code, Expected.code]

@[simp] theorem usual_become : (become kind).Usual := usual_of_silent rfl

@[simp] theorem usual_becomeError_expected :
    (becomeError (some (.expected what t))).Usual := usual_begin_expected .error what t

@[simp] theorem usual_wrapLast : (wrapLast kind).Usual := usual_of_silent rfl

@[simp] theorem usual_take : (take t).Usual := usual_of_silent rfl

@[simp] theorem usual_takeName : (takeName t).Usual := usual_of_silent rfl

@[simp] theorem usual_close : close.Usual := usual_of_silent rfl

end

end Action

namespace Control

theorem usual_recover (c : Control) (t : Token) (skipped : Option Skipped) :
    ∀ a ∈ c.recoverActions t skipped, a.Usual := by
  fun_cases recoverActions c t skipped <;> simp

theorem usual_declaration {c after : Control} {t : Token} {body : Body} {actions : List Action}
    (declares : c.Declares t body after actions) : ∀ a ∈ actions, a.Usual := by
  cases declares with
  | dangling =>
    simpa [Action.report, Action.Usual, Action.error?, SyntaxError.code] using
      c.usual_recover t (some .statement)
  | _ => simp

theorem usual_work (c : Control) (comma : Bool) {t : Token} {g : Goal}
    (swept : g = .leftovers → t.kind = .eof) : ∀ a ∈ c.workActions comma t g, a.Usual := by
  have skips := c.usual_recover t (some .statement)
  cases g with
  | declaration body => exact usual_declaration (c.declares t body)
  | leftovers => simp [workActions, swept rfl]
  | item body =>
    cases body <;> simp only [workActions, Action.item] <;> (try split_ifs) <;> simp
  | skip skipped any => cases skipped <;> simp only [workActions] <;> split_ifs <;> simp
  | _ =>
    simp only [workActions, openBraceActions, Action.mark, Action.enumSymbols, Action.json,
      Action.separator, Action.typeBody, Action.expected, Action.report]
    (try split_ifs) <;> simp
    all_goals exact skips

/-- Only the sweep behind a document reports tokens that belong to nothing. -/
theorem usual_actions {c : Control} (comma : Bool) {t : Token}
    (swept : ∀ rest, c.goals = .leftovers :: rest → t.kind = .eof) :
    ∀ a ∈ c.actions comma t, a.Usual := by
  obtain ⟨goals, ok, taken, blocks⟩ := c
  cases goals with
  | nil => simp [actions]
  | cons g rest =>
    cases ok with
    | true => exact usual_work _ comma fun same => swept rest (congrArg (· :: rest) same)
    | false =>
      cases g with
      | recover skipped => exact usual_recover _ t skipped
      | _ => simp [actions, unwindActions]

end Control

/-- A node reports an error of some kind or none. -/
def Element.Blames (P : SyntaxError → Prop) (l : Label) (_ : List Element) : Prop :=
  ∀ e ∈ l.error, P e

namespace Machine

variable {P : SyntaxError → Prop} {m : Machine}

/-- All errors that have been reported are of some kind. -/
structure Blames (P : SyntaxError → Prop) (m : Machine) : Prop where
  frames : ∀ f ∈ m.frames, ∀ e ∈ f.error, P e
  elements : AllOf (Element.Blames P) m.elements

theorem error_flush (h : ∀ f ∈ m.frames, ∀ e ∈ f.error, P e) :
    ∀ f ∈ m.flush.frames, ∀ e ∈ f.error, P e := forall_onTop h fun _ _ fine => fine

theorem error_take (h : ∀ f ∈ m.frames, ∀ e ∈ f.error, P e) (t : Token) :
    ∀ f ∈ (m.take t).frames, ∀ e ∈ f.error, P e :=
  forall_onTop (error_flush h) fun _ _ fine => fine

theorem Blames.act (h : m.Blames P) {a : Action} (enabled : a.Enabled m)
    (fine : ∀ e ∈ a.error?, P e) : (m.act a).Blames P := by
  have outer (inner : m.frames.tail ≠ []) : m.frames ≠ [] := fun none => inner (by rw [none]; rfl)
  cases a with
  | begin kind error =>
    refine ⟨fun f mem => ?_, ?_⟩
    · rw [Machine.act, frames_begin] at mem
      rcases List.mem_cons.mp mem with rfl | mem
      · exact fine
      · exact error_flush h.frames f mem
    · rw [Machine.act, elements_begin enabled]
      exact h.elements
  | become kind =>
    refine ⟨forall_onTop h.frames fun _ _ fine => fine, ?_⟩
    have same : (m.become kind).elements = m.elements := elements_onTop fun _ => rfl
    rw [Machine.act, same]
    exact h.elements
  | becomeError error =>
    refine ⟨forall_onTop h.frames fun _ _ _ => fine, ?_⟩
    have same : (m.becomeError error).elements = m.elements := elements_onTop fun _ => rfl
    rw [Machine.act, same]
    exact h.elements
  | wrapLast kind =>
    obtain ⟨_, f, top, l, children, others, hc, _⟩ := enabled
    obtain ⟨below, hm⟩ : ∃ below, m.frames = f :: below := List.head?_eq_some_iff.mp top
    have frames := h.frames
    rw [hm] at frames
    refine ⟨fun g mem => ?_, ?_⟩
    · simp only [Machine.act, Machine.wrapLast, hm, hc, List.mem_cons] at mem
      rcases mem with rfl | rfl | mem
      · simp
      · exact frames f List.mem_cons_self
      · exact frames g (.tail _ mem)
    · rw [Machine.act, elements_wrapLast hm (by simp [hc])]
      exact h.elements
  | take t =>
    refine ⟨error_take h.frames t, ?_⟩
    rw [Machine.act, elements_take (outer enabled)]
    exact allOf_leaf h.elements t
  | takeName t =>
    refine ⟨error_take (m := m.flush.onTop _) (forall_onTop (error_flush h.frames) ?_) t, ?_⟩
    · exact fun _ _ fine => fine
    rw [Machine.act, elements_takeName (outer enabled.1)]
    exact allOf_leaf h.elements t
  | close =>
    obtain ⟨f, g, below, hm, closed⟩ := close_frames enabled
    have frames := h.frames
    rw [hm] at frames
    refine ⟨fun k mem => ?_, allOf_close hm h.elements (frames f List.mem_cons_self)⟩
    rw [Machine.act, closed] at mem
    rcases List.mem_cons.mp mem with rfl | mem
    · exact frames g (by simp)
    · exact frames k (.tail _ (.tail _ mem))

theorem Blames.perform (h : m.Blames P) {actions : List Action} (performs : m.Performs actions)
    (fine : ∀ a ∈ actions, ∀ e ∈ a.error?, P e) : (m.perform actions).Blames P := by
  induction actions generalizing m with
  | nil => exact h
  | cons a rest ih =>
    exact ih (h.act performs.1 (fine a List.mem_cons_self)) performs.2
      fun b mem => fine b (.tail _ mem)

/-- The errors in the tree are those that the steps reported. -/
theorem Blames.step {origin : Origin} {base : Body} (h : m.Blames P) (aligned : m.Aligned origin base)
    {t : Token} (fine : ∀ a ∈ m.control.actions m.afterComma t, ∀ e ∈ a.error?, P e) :
    (m.step t).Blames P := by
  have performed := h.perform (aligned.performs t) fine
  rw [step_eq]
  exact ⟨performed.frames, performed.elements⟩

theorem Blames.receive (h : m.Blames P) (lexical : ∀ cause text, P (.lexical cause text))
    (l : Lexeme) : (m.receive l).Blames P := by
  refine ⟨by rw [frames_receive]; exact h.frames, allOf_receive h.elements ?_ l⟩
  intro arena generation cause t e mem
  obtain rfl := Option.some.inj mem
  exact lexical cause t.text

end Machine

/-- On the way through a document nothing is reported to belong to nothing. -/
theorem Reading.blames_document {arena : Arena} {generation : UInt64} {text : Bytes} {r : Reading}
    (way : Reaches (document arena generation text) r) :
    r.machine.Aligned .any .document ∧ r.machine.Blames fun e => e.code ≠ 2005 := by
  have lexical (cause : LexError) (text : Bytes) : (SyntaxError.lexical cause text).code ≠ 2005 := by
    cases cause <;> simp [SyntaxError.code, LexError.code]
  induction way with
  | refl =>
    refine ⟨(Machine.sound_ofText .document arena generation 0 text).2.aligned, ?_⟩
    obtain ⟨l, ls, hl, -⟩ := lexemes_eq_cons text
    simp only [document, ofText, hl]
    apply Machine.Blames.receive _ lexical
    exact ⟨by simp [Machine.start], trivial⟩
  | @tail r₁ r₂ before next ih =>
    obtain ⟨aligned, blames⟩ := ih
    have usual := Control.usual_actions r₁.machine.afterComma fun rest goals =>
      (looping_document before).grounded.eof_of_leftovers (looping_document before).ordered goals
    have aligned := aligned.step r₁.token fun _ _ _ => trivial
    have blames := blames.step ‹_› usual
    cases next with
    | stay => exact ⟨aligned, blames⟩
    | move => exact ⟨aligned.receive _, blames.receive lexical _⟩

namespace Tree

open Reading

/-- No node of a tree that is read reports a token that belongs to nothing. -/
theorem parseIn_blames (arena : Arena) (opts : ParseOptions) (text : Bytes) :
    (parseIn arena opts text).element.All (Element.Blames fun e => e.code ≠ 2005) := by
  by_cases long : (opts.maxSize < text.length || maxOffset < text.length) = true
  · rw [parseIn, if_pos long]
    simp [tooLong, Tree.element, Element.All, AllOf, Element.Blames, SyntaxError.code, LexError.code]
  · simp only [Bool.or_eq_true, decide_eq_true_eq, not_or] at long
    obtain ⟨t, way, -⟩ := Machine.document_reaches arena opts.generation text
    rw [parseIn_eq arena (Nat.not_lt.mp long.1) (Nat.not_lt.mp long.2)]
    exact ⟨by simp [Element.Blames, Arena.nextLabel], (blames_document way).2.elements⟩

/-- Recovery always makes progress. On the way through any text, every statement takes a token unless
its body ends before it, and so does every turn of the loop over the symbols of an enum. The loops end
at their terminators only, the sweep behind the document finds the end of the text, and no node of
the tree reports what the sweep would. -/
theorem parse_recovers (arena : Arena) (opts : ParseOptions) (text : Bytes) :
    (∀ r, Reaches (document arena opts.generation text) r → r.Recovers) ∧
      (∃ t, Reaches (document arena opts.generation text)
          ⟨documentEnd arena opts.generation text, t, []⟩ ∧
        (documentEnd arena opts.generation text).goals = [] ∧ t.kind = .eof) ∧
      (parseIn arena opts text).element.All fun l _ => ∀ e ∈ l.error, e.code ≠ 2005 := by
  obtain ⟨t, way, done, eof, -⟩ := Machine.document_reaches arena opts.generation text
  refine ⟨fun r before => ?_, ⟨t, way, done, eof⟩, parseIn_blames arena opts text⟩
  exact (looping_document before).recovers (reaches_of_done before way done) done

/-- A closing brace that closes nothing is taken by the statement that is read there. -/
theorem parse_recovers_brace :
    ∃ r, Reaches (document {} 1 "\x7d") r ∧ r.token.kind = .closeCurl ∧
      r.machine.goals = [.item .document, .moreItems .document 0, .leftovers] ∧
      (∃ r', Reaches r r' ∧ r'.machine.goals = [.moreItems .document 0, .leftovers] ∧
        r.machine.taken < r'.machine.taken) ∧
      (parseIn {} {} "\x7d").element.All fun l _ => ∀ e ∈ l.error, e.code ≠ 2005 := by
  obtain ⟨recovers, -, usual⟩ := parse_recovers {} {} "\x7d"
  let first := document {} 1 "\x7d"
  have way : Reaches first ⟨first.machine.step first.token, first.token, first.rest⟩ :=
    .single (.stay (by decide +kernel) (by decide +kernel))
  have goals : (first.machine.step first.token).goals =
      [.item .document, .moreItems .document 0, .leftovers] := by decide +kernel
  obtain ⟨⟨r', reads, back⟩, takes⟩ :=
    (recovers _ way).statement .document _ goals (by decide +kernel)
  exact ⟨_, way, by decide +kernel, goals, ⟨r', reads, back, takes r' reads back⟩, usual⟩

end Tree

end AvroIdl
