import AvroIdl.Proofs.Parser.Accounted

/-!
# No error goes unreported

However far a text is read, the errors in what the parser has built are accounted for,
`Reading.answerable_of_reaches`.

The parser gives up what it reads at an error, and skips part of the text where the error is dealt
with. In between the nodes that are open end one by one, and what they report is passed on to the
next.

* `Control.fails_work`: a step that gives up has reported why;
* `Control.apart_work`: what is skipped later is skipped in a node without statements;
* `Machine.Answerable.step`: until an error is dealt with, the innermost open node has something to
  report.
-/

namespace AvroIdl

open Element (AllOf Silent)

/-! ## Where errors are dealt with -/

/-- No statements stand in the open node of a goal after which part of the text is skipped. -/
def Goal.Apart (ks : List NodeKind) : Goal → Prop
  | .recover (some _) | .type | .nullable | .unionItems | .unionSeparator | .members | .moreMembers
  | .elements | .moreElements => ∀ k ∈ ks.head?, k.isHost = false
  | _ => True

/-- Every goal stands where it has to when it is reached, and what a question mark can follow is no
error node. -/
def KeptApart : List Goal → List NodeKind → Prop
  | [], _ => True
  | .close :: rest, ks =>
    (rest.head? = some .nullable → ∀ k ∈ ks.head?, k ≠ .error) ∧ KeptApart rest ks.tail
  | g :: rest, ks => g.Apart ks ∧ KeptApart rest ks

namespace Control

variable {c : Control} {ks : List NodeKind}

/-- What is left to do after some actions keeps apart from statements. If the innermost node has
just become an error node, nothing but its end is reached before the error is dealt with. -/
def Keeps (ks : List NodeKind) (actions : List Action) (after : Control) : Prop :=
  KeptApart after.goals (actions.foldl Action.onKinds ks) ∨
    after.ok = false ∧ ∃ rest, after.goals = .close :: rest ∧
      KeptApart rest (actions.foldl Action.onKinds ks).tail

theorem apart_recover (t : Token) (skipped : Option Skipped) (h : KeptApart c.goals ks)
    (tucked : c.goals.head? ≠ some .nullable) :
    KeptApart (c.recover t skipped).goals
      ((c.recoverActions t skipped).foldl Action.onKinds ks) := by
  rcases skipped with _ | _ | _
  · exact h
  all_goals
    simp only [recover, recoverActions]
    split_ifs
    · exact h
    · simp [Action.onKinds, push, KeptApart, Goal.Apart, h, tucked]

theorem apart_openBrace (t : Token) {inside : List Goal} (h : KeptApart c.goals ks)
    (tucked : c.goals.head? ≠ some .nullable) (within : KeptApart (inside ++ c.goals) ks) :
    KeptApart (c.openBrace t inside).goals ((c.openBraceActions t).foldl Action.onKinds ks) := by
  have recovers := apart_recover t (some .statement) h tucked
  simp only [openBrace, openBraceActions]
  split_ifs
  · simpa [Action.onKinds, push, count] using within
  · simpa [Action.onKinds, Action.expected, Action.report] using recovers

theorem apart_declaration {t : Token} {body : Body} {after : Control} {actions : List Action}
    {rest : List Goal} (declares : c.Declares t body after actions)
    (ends : c.goals = .close :: rest) (tucked : rest.head? ≠ some .nullable)
    (h : KeptApart rest ks.tail) : KeptApart after.goals (actions.foldl Action.onKinds ks) := by
  have recovers : KeptApart (c.recover t (some .statement)).goals
      ((c.recoverActions t (some .statement)).foldl Action.onKinds (.error :: ks.tail)) := by
    refine apart_recover t _ ?_ (by simp [ends])
    rw [ends]
    exact ⟨fun null => absurd null tucked, h⟩
  cases declares with
  | dangling => simpa [Action.onKinds, Action.report] using recovers
  | _ =>
    simp [Action.onKinds, push, count, KeptApart, Goal.Apart, Machine.messageRest, NodeKind.isHost,
      NodeKind.body?, ends, tucked, h]

theorem apart_work (comma : Bool) (t : Token) {g : Goal} (h : KeptApart (g :: c.goals) ks)
    (tucked : g ≠ .close → c.goals.head? ≠ some .nullable)
    (typeBody : g = .typeBody → ∃ rest, c.goals = .close :: rest)
    (declaration : ∀ body, g = .declaration body →
      ∃ rest, c.goals = .close :: rest ∧ rest.head? ≠ some .nullable) :
    Keeps ks (c.workActions comma t g) (c.work comma t g) := by
  cases g with
  | close => exact .inl h.2
  | item body =>
    have tucked := tucked (by simp)
    refine .inl ?_
    cases body <;> simp only [work, workActions, item, Action.item, importRest] <;>
      (try split_ifs) <;>
      simp [Action.onKinds, push, count, KeptApart, Goal.Apart, NodeKind.isHost, NodeKind.body?,
        h.2, tucked]
  | declaration body =>
    obtain ⟨rest, ends, tucked⟩ := declaration body rfl
    have later := h.2
    rw [ends] at later
    exact .inl (apart_declaration (c.declares t body) ends tucked later.2)
  | typeBody =>
    obtain ⟨rest, ends⟩ := typeBody rfl
    have later := h.2
    rw [ends] at later
    simp only [work, workActions, Control.typeBody, Action.typeBody]
    split_ifs
    case neg => exact .inr ⟨rfl, rest, ends, later.2⟩
    all_goals
      refine .inl ?_
      simp [Action.onKinds, push, count, KeptApart, Goal.Apart, NodeKind.isHost, NodeKind.body?,
        ends, later.2]
  | block body =>
    have tucked := tucked (by simp)
    have within : KeptApart
        ([Goal.items body, .leaveBlock, .mark .closeCurl, .recover none] ++ c.goals) ks :=
      ⟨trivial, trivial, trivial, trivial, h.2⟩
    refine .inl ?_
    simp only [work, workActions]
    split_ifs with curl
    · simpa [openBrace, openBraceActions, curl, Action.onKinds, push, count] using within
    · exact apart_openBrace t h.2 tucked within
  | enumBody =>
    have tucked := tucked (by simp)
    exact .inl (apart_openBrace t h.2 tucked ⟨trivial, trivial, trivial, trivial, h.2⟩)
  | group skipped closers =>
    refine .inl ?_
    simp only [work, workActions, group]
    cases closer : t.closer? <;> cases closers.tail <;> dsimp only <;> split_ifs <;>
      simp [Action.onKinds, push, count, KeptApart, Goal.Apart, h.2]
  | skip skipped any =>
    refine .inl ?_
    cases skipped <;> simp only [work, workActions, skipOne] <;> split_ifs <;> (try split) <;>
      simp [Action.onKinds, push, count, KeptApart, Goal.Apart, h.2]
  | _ =>
    clear typeBody declaration
    have tucked := tucked (by simp)
    obtain ⟨here, rest⟩ := h
    refine .inl ?_
    simp only [work, workActions, Action.mark, Action.enumSymbols, Action.json, Action.separator,
      Action.expected, Action.report]
    (try split_ifs) <;>
      simp_all [Action.onKinds, push, count, fail, KeptApart, Goal.Apart, NodeKind.isHost,
        NodeKind.body?]

theorem apart_unwind (t : Token) {g : Goal} (h : KeptApart (g :: c.goals) ks)
    (tucked : g ≠ .close → c.goals.head? ≠ some .nullable) :
    KeptApart (c.unwind t g).goals ((c.unwindActions t g).foldl Action.onKinds ks) := by
  cases g with
  | close => exact h.2
  | recover skipped =>
    have same : c.recoverActions t skipped =
        ({ c with ok := true } : Control).recoverActions t skipped := by
      rcases skipped with _ | _ | _ <;> rfl
    rw [unwindActions, same]
    exact apart_recover (c := { c with ok := true }) t skipped h.2 (tucked (by simp))
  | _ => exact h.2

theorem plain_declaration {c after : Control} {t : Token} {body : Body} {actions : List Action}
    (declares : c.Declares t body after actions) (proper : t.kind ≠ .error) :
    actions.all Action.isPlain = true ∨
      ∃ e, actions = .becomeError none :: (Action.report e ++ c.recoverActions t (some .statement)) := by
  cases declares with
  | dangling => exact .inr ⟨_, rfl⟩
  | _ => exact .inl (by simp [Action.isPlain, proper])

/-- What a step makes that has to be answered for. -/
theorem plain_work (c : Control) (comma : Bool) {t : Token} (proper : t.kind ≠ .error) (g : Goal) :
    (c.workActions comma t g).all Action.isPlain = true ∨
      (∃ e, c.workActions comma t g = Action.report e ++ c.recoverActions t (some .statement)) ∨
      (∃ e, c.workActions comma t g =
        .becomeError none :: (Action.report e ++ c.recoverActions t (some .statement))) ∨
      g = .nullable ∧ c.workActions comma t g = [.wrapLast .nullableType, .take t, .close] := by
  have brace : (c.openBraceActions t).all Action.isPlain = true ∨
      ∃ e, c.openBraceActions t = Action.report e ++ c.recoverActions t (some .statement) := by
    rw [openBraceActions]
    split_ifs
    · exact .inl (by simpa [Action.isPlain] using proper)
    · exact .inr ⟨_, rfl⟩
  cases g with
  | block | enumBody => exact brace.imp_right .inl
  | declaration body =>
    rw [workActions]
    exact (plain_declaration (c.declares t body) proper).imp_right (.inr ∘ .inl)
  | nullable =>
    rw [workActions]
    split_ifs
    · exact .inr (.inr (.inr ⟨rfl, rfl⟩))
    · exact .inl rfl
  | item body =>
    refine .inl ?_
    cases body <;> simp only [workActions, Action.item] <;> (try split_ifs) <;>
      simp [Action.isPlain, proper]
  | skip skipped any =>
    refine .inl ?_
    cases skipped <;> simp only [workActions] <;> split_ifs <;> simp [Action.isPlain, proper]
  | _ =>
    refine .inl ?_
    simp only [workActions, Action.mark, Action.enumSymbols, Action.json, Action.separator,
      Action.typeBody, Action.expected, Action.report]
    (try split_ifs) <;> simp [Action.isPlain, proper]

/-- A step that gives up reports an error at its end. -/
theorem fails_work (c : Control) (ok : c.ok = true) (comma : Bool) (t : Token) {g : Goal} :
    (c.work comma t g).ok = false →
      ∃ before e, c.workActions comma t g = before ++ Action.report e ∨
        c.workActions comma t g = before ++ [Action.becomeError (some e)] := by
  cases g with
  | name | mark | integer | importPath | exceptions | type =>
    simp only [work, workActions, Action.mark]
    split_ifs
    · simp [ok]
    · exact fun _ => ⟨[], _, .inl rfl⟩
  | importKind =>
    simp only [work, workActions]
    split_ifs
    · simp [ok]
    all_goals exact fun _ => ⟨[], _, .inl rfl⟩
  | json =>
    simp only [work, workActions, Action.json]
    split_ifs
    case neg => exact fun _ => ⟨[], _, .inl rfl⟩
    all_goals simp [ok]
  | members =>
    simp only [work, workActions]
    split_ifs
    case neg => exact fun _ => ⟨[.begin .jsonMember none], _, .inl rfl⟩
    all_goals simp [ok]
  | typeBody =>
    simp only [work, workActions, typeBody, Action.typeBody]
    split_ifs
    case neg => exact fun _ => ⟨[], _, .inr rfl⟩
    all_goals simp [ok]
  | skip skipped any =>
    cases skipped <;> simp only [work] <;> split_ifs <;> simp [ok]
  | block body =>
    simp only [work]
    split <;> simp [ok]
  | _ =>
    simp only [work]
    repeat' split
    all_goals simp [ok]

end Control

/-! ## Every step -/

namespace Machine

variable {base : Body} {m : Machine}

/-- Work on a goal keeps errors accounted for. -/
theorem Accounted.work {c : Control} {comma : Bool} {t : Token} {g : Goal} (h : m.Accounted)
    (performs : m.Performs (c.workActions comma t g)) (some : m.frames ≠ [])
    (proper : t.kind ≠ .error) (apart : g = .nullable → ∀ k ∈ m.kinds.head?, k.isHost = false)
    (ready : g = .nullable → ∀ f ∈ m.frames.head?, ∀ e ∈ f.children.head?, ¬ e.Mute) :
    (m.perform (c.workActions comma t g)).Accounted := by
  rcases c.plain_work comma proper g with plain | ⟨e, eq⟩ | ⟨e, eq⟩ | ⟨null, eq⟩
  · exact h.perform performs plain
  all_goals rw [eq] at performs ⊢
  · exact h.missing some e c t _
  · exact h.dangling performs.1.1 e c t _
  · exact h.nullable performs.1 proper (apart null) (ready null)

/-- So does passing over a goal, if the error that is dealt with has been reported. -/
theorem Accounted.unwind {c : Control} {t : Token} {g : Goal} (h : m.Accounted)
    (performs : m.Performs (c.unwindActions t g)) (some : m.frames ≠ [])
    (answers : ∀ skipped, g = .recover (.some skipped) → ∀ f ∈ m.frames.head?, f.Answers) :
    (m.perform (c.unwindActions t g)).Accounted := by
  cases g with
  | close => exact h.close performs.1
  | recover skipped =>
    cases skipped with
    | none => exact h
    | some skipped => exact h.recover some (answers skipped rfl) c t _
  | _ => exact h

theorem kinds_perform {actions : List Action} (performs : m.Performs actions) :
    (m.perform actions).kinds = actions.foldl Action.onKinds m.kinds := by
  induction actions generalizing m with
  | nil => rfl
  | cons a rest ih => rw [perform_cons, List.foldl_cons, ← kinds_act performs.1, ih performs.2]

/-- The innermost open node has something to report. -/
def Sounds (m : Machine) : Prop := ∃ f ∈ m.frames.head?, f.Sounds

theorem Sounds.close (h : m.Sounds) (inner : m.frames.tail ≠ []) : m.close.Sounds := by
  obtain ⟨f, g, below, hm, closed⟩ := close_frames inner
  obtain ⟨_, top, sounds⟩ := h
  obtain rfl : f = _ := by simpa [hm] using top
  exact ⟨_, by rw [closed]; rfl, .inr ⟨m.ended f, List.mem_cons_self, not_silent_ended sounds⟩⟩

theorem sounds_report (some : m.frames ≠ []) (error : SyntaxError) :
    (m.perform (Action.report error)).Sounds := by
  obtain ⟨f, below, hm⟩ := List.exists_cons_of_ne_nil some
  obtain ⟨e, loud, -, frames⟩ := frames_report hm error
  exact ⟨_, by rw [frames]; rfl, .inr ⟨e, List.mem_cons_self, loud⟩⟩

theorem sounds_becomeError (some : m.frames ≠ []) (error : SyntaxError) :
    (m.becomeError (.some error)).Sounds := by
  obtain ⟨f, below, hm⟩ := List.exists_cons_of_ne_nil some
  refine ⟨{ f with kind := .error, error := .some error }, ?_, .inl rfl⟩
  simp [Machine.becomeError, Machine.onTop, hm]

/-- A node that ends and is no error node reports something if it is marked. -/
theorem Accounted.not_mute_closed (h : m.Accounted) (inner : m.frames.tail ≠ [])
    (other : ∀ k ∈ m.kinds.head?, k ≠ .error) :
    ∀ f ∈ m.close.frames.head?, ∀ e ∈ f.children.head?, ¬ e.Mute := by
  obtain ⟨f, g, below, hm, closed⟩ := close_frames inner
  have here : f.Accounted := h.frames.accounted f (by simp [hm])
  rw [closed]
  rintro _ ⟨rfl⟩ _ ⟨rfl⟩ mute
  exact other f.kind (by simp [kinds, hm]) (mute_of_ended here mute).1

/-- What the parser keeps about errors. -/
structure Answerable (base : Body) (m : Machine) : Prop where
  aligned : m.Aligned .any base
  apart : Control.Keeps m.kinds [] m.control
  accounted : m.Accounted
  /-- What a question mark can follow reports something if it is marked. -/
  ready : m.ok = true → m.goals.head? = some .nullable →
    ∀ f ∈ m.frames.head?, ∀ e ∈ f.children.head?, ¬ e.Mute
  /-- Until an error is dealt with, it has been reported in the innermost open node. -/
  sounds : m.ok = false → m.Sounds

theorem Answerable.keeps_step (h : m.Answerable base) (t : Token) :
    Control.Keeps m.kinds (m.control.actions m.afterComma t) (m.control.step m.afterComma t) := by
  obtain ⟨⟨nested, tucked, -⟩, apart, -⟩ := h
  obtain ⟨arena, generation, frames, pending, goals, ok, taken, blocks⟩ := m
  cases goals with
  | nil => exact apart
  | cons g rest =>
    have behind : g ≠ .close → rest.head? ≠ some .nullable := fun other =>
      Goal.Tucked.head?_ne (by simpa [other] using tucked.2)
    cases ok with
    | false =>
      refine .inl ?_
      rcases apart with apart | ⟨-, rest', ends, apart⟩
      · exact Control.apart_unwind (c := ⟨rest, false, taken, blocks⟩) t apart behind
      · obtain ⟨rfl, rfl⟩ := List.cons.inj ends
        exact apart
    | true =>
      have apart := apart.resolve_right (by simp [control])
      obtain ⟨f, below, rfl⟩ := List.exists_cons_of_ne_nil nested.frames_ne
      refine Control.apart_work (c := ⟨rest, true, taken, blocks⟩) _ t apart behind ?_ ?_
      · rintro rfl
        exact nested.1.2.2
      · rintro body rfl
        obtain ⟨rest', ends, -, head, -⟩ := nested.1.2.2
        exact ⟨rest', ends, head⟩

theorem Answerable.accounted_step (h : m.Answerable base) {t : Token} (proper : t.kind ≠ .error) :
    (m.perform (m.control.actions m.afterComma t)).Accounted := by
  have performs := h.aligned.performs t
  have some := h.aligned.nested.frames_ne
  obtain ⟨arena, generation, frames, pending, goals, ok, taken, blocks⟩ := m
  obtain ⟨-, apart, accounted, ready, sounds⟩ := h
  cases goals with
  | nil => exact accounted
  | cons g rest =>
    cases ok with
    | false =>
      refine accounted.unwind (c := ⟨rest, false, taken, blocks⟩) performs some ?_
      rintro skipped rfl g here
      obtain ⟨f, top, sounds⟩ := sounds rfl
      obtain rfl := Option.mem_unique top here
      rcases apart with apart | ⟨-, _, ends, -⟩
      · exact sounds.answers (apart.1 f.kind (by simpa [kinds] using ⟨f, top, rfl⟩))
      · simp [control] at ends
    | true =>
      have apart := apart.resolve_right (by simp [control])
      refine accounted.work (c := ⟨rest, true, taken, blocks⟩) performs some proper ?_ ?_
      · rintro rfl
        exact apart.1
      · rintro rfl
        exact ready rfl rfl

theorem Answerable.sounds_step (h : m.Answerable base) (t : Token)
    (failed : (m.control.step m.afterComma t).ok = false) :
    (m.perform (m.control.actions m.afterComma t)).Sounds := by
  have performs := h.aligned.performs t
  obtain ⟨arena, generation, frames, pending, goals, ok, taken, blocks⟩ := m
  obtain ⟨-, -, -, -, sounds⟩ := h
  cases goals with
  | nil => exact sounds failed
  | cons g rest =>
    cases ok with
    | false =>
      cases g with
      | close => exact (sounds rfl).close performs.1
      | recover skipped => simp [Control.step, control, Control.unwind] at failed
      | _ => exact sounds rfl
    | true =>
      obtain ⟨before, e, eq | eq⟩ :=
        Control.fails_work ⟨rest, true, taken, blocks⟩ rfl _ t failed
      all_goals
        simp only [Control.actions, control, if_true, eq] at performs ⊢
        rw [perform_append]
        obtain ⟨-, last, -⟩ := performs_append performs
      · exact sounds_report last e
      · exact sounds_becomeError (fun none => last.1 (by rw [none]; rfl)) e

theorem Answerable.ready_step (h : m.Answerable base) (t : Token) (ok : (m.step t).ok = true)
    (null : (m.step t).goals.head? = some .nullable) :
    ∀ f ∈ (m.step t).frames.head?, ∀ e ∈ f.children.head?, ¬ e.Mute := by
  rw [step_eq] at ok null ⊢
  have performs := h.aligned.performs t
  obtain ⟨arena, generation, frames, pending, goals, past, taken, blocks⟩ := m
  obtain ⟨⟨-, tucked, -⟩, apart, accounted, ready, -⟩ := h
  cases goals with
  | nil => exact ready ok null
  | cons g rest =>
    by_cases close : g = .close
    · subst close
      cases past with
      | false => simp [Control.step, control, Control.unwind, resume] at ok
      | true =>
        have apart := apart.resolve_right (by simp [control])
        exact accounted.not_mute_closed performs.1 (apart.1 null)
    · have behind : Goal.Tucked false rest := by simpa [close] using tucked.2
      cases past with
      | false =>
        exact absurd null (tucked_unwind (c := ⟨rest, false, taken, blocks⟩) t g behind).head?_ne
      | true =>
        exact absurd null (tucked_work (c := ⟨rest, true, taken, blocks⟩) _ t close behind).head?_ne

/-- Every step keeps errors accounted for. -/
theorem Answerable.step (h : m.Answerable base) {t : Token} (proper : t.kind ≠ .error) :
    (m.step t).Answerable base := by
  have keeps := h.keeps_step t
  rw [Control.Keeps, ← kinds_perform (h.aligned.performs t)] at keeps
  have accounted := h.accounted_step proper
  refine ⟨h.aligned.step t fun _ _ _ => trivial, ?_, ?_, h.ready_step t, ?_⟩ <;> rw [step_eq]
  · exact keeps
  · exact ⟨accounted.frames, accounted.pending, accounted.elements⟩
  · exact h.sounds_step t

end Machine

/-- The grammar sees no malformed token, and the malformed tokens before it have a cause. -/
structure Lexeme.Proper (l : Lexeme) : Prop where
  token : l.token.kind ≠ .error
  leading : ∀ t ∈ l.leading, t.error = none → t.kind ≠ .error

theorem Lexeme.token_ne_error {leading ts : List Token} {l : Lexeme} (mem : l ∈ group leading ts) :
    l.token.kind ≠ .error := by
  fun_induction group leading ts with
  | case1 leading =>
    obtain rfl := List.mem_singleton.mp mem
    simp [Token.eof]
  | case2 leading t rest unseen ih => exact ih mem
  | case3 leading t rest seen ih =>
    rcases List.mem_cons.mp mem with rfl | mem
    · simp only [Bool.or_eq_true, decide_eq_true_eq, not_or] at seen
      exact seen.2
    · exact ih mem

theorem Lexeme.proper_of_mem {text : Bytes} {l : Lexeme} (mem : l ∈ lexemes text) : l.Proper := by
  refine ⟨token_ne_error mem, ?_⟩
  have malformed : ∀ l ∈ lexemes text, ∀ t ∈ l.leading, t.error = none → t.kind ≠ .error :=
    (forall_leading [] (Token.all text)).mpr
      ⟨by simp, fun t there _ => (Token.error_eq_none_iff there).mp⟩
  exact malformed l mem

namespace Machine

variable {base : Body} {m : Machine}

/-- A malformed token is reported by the node that it is put into. -/
theorem Accounted.hold (h : m.Accounted) {t : Token} (proper : t.error = none → t.kind ≠ .error) :
    (m.hold t).Accounted := by
  obtain ⟨frames, pending, elements⟩ := h
  unfold Machine.hold
  simp only [Machine.elements, Element.allOf_append] at elements
  split
  next none =>
    refine ⟨frames, ?_, by simpa [Machine.elements, AllOf, Element.All] using elements⟩
    simpa [or_imp, forall_and, Element.mute_leaf] using ⟨pending, proper none⟩
  next cause _ =>
    refine ⟨frames, ?_, ?_⟩
    · simpa [or_imp, forall_and] using
        ⟨pending, fun mute => absurd mute.2.1 (by simp [Silent, Arena.nextLabel])⟩
    · simp only [Machine.elements, Element.allOf_append]
      exact ⟨elements.1, elements.2, ⟨fun other => absurd rfl other, trivial, trivial⟩, trivial⟩

theorem Accounted.receive (h : m.Accounted) {l : Lexeme} (proper : l.Proper) :
    (m.receive l).Accounted := by
  obtain ⟨leading, token⟩ := l
  replace proper := proper.leading
  unfold Machine.receive
  dsimp only at proper ⊢
  induction leading generalizing m with
  | nil => exact h
  | cons t rest ih =>
    rw [List.forall_mem_cons] at proper
    exact ih (h.hold proper.1) proper.2

theorem Answerable.receive (h : m.Answerable base) {l : Lexeme} (proper : l.Proper) :
    (m.receive l).Answerable base := by
  refine ⟨h.aligned.receive l, ?_, h.accounted.receive proper, ?_, ?_⟩
  · rw [kinds, frames_receive, control_receive]
    exact h.apart
  · simpa using h.ready
  · simpa [Sounds] using h.sounds

/-- The parser before its first lexeme has met no error. -/
theorem answerable_start {goals : List Goal} (task : Goal.Task base goals) (arena : Arena)
    (generation : UInt64) (blocks : Nat) :
    (start arena generation blocks goals).Answerable base := by
  refine ⟨aligned_start task .., .inl ?_, ⟨?_, by simp [start], trivial⟩, ?_, ?_⟩
  · cases task with
    | document => exact ⟨trivial, trivial, trivial⟩
    | statement => exact ⟨trivial, trivial⟩
  · refine Frame.Stacked.cons ⟨by simp, .nil⟩ (fun _ => ?_) (by simp)
    exact Element.accountedIn_of_not_mute (by simp)
  · cases task <;> simp [start]
  · simp [start]

end Machine

/-- However far a text is read, the errors in what is built are accounted for. -/
theorem Reading.answerable_of_reaches {base : Body} {goals : List Goal}
    (task : Goal.Task base goals) (arena : Arena) (generation : UInt64) (blocks : Nat)
    (text : Bytes) {r : Reading}
    (way : Reaches (.ofText (Machine.start arena generation blocks goals) text) r) :
    r.machine.Answerable base := by
  have start := Machine.answerable_start task arena generation blocks
  have all : r.machine.Answerable base ∧ r.token.kind ≠ .error ∧ ∀ l ∈ r.rest, l.Proper := by
    induction way with
    | refl =>
      obtain ⟨l, rest, hl, -⟩ := lexemes_eq_cons text
      have proper : ∀ l ∈ lexemes text, l.Proper := fun _ => Lexeme.proper_of_mem
      rw [hl, List.forall_mem_cons] at proper
      unfold Reading.ofText
      rw [hl]
      exact ⟨start.receive proper.1, proper.1.token, proper.2⟩
    | tail _ next ih =>
      obtain ⟨answerable, token, rest⟩ := ih
      cases next with
      | stay => exact ⟨answerable.step token, token, rest⟩
      | move =>
        rw [List.forall_mem_cons] at rest
        exact ⟨(answerable.step token).receive rest.1, rest.1.token, rest.2⟩
  exact all.1

end AvroIdl
