import AvroIdl.Proofs.Parser.Order
import AvroIdl.Proofs.Tree.Lossless

/-!
# Texts without errors

The tree of a text reports no error exactly if its tokens are well-formed and those that are no trivia
make up a document of the grammar, `Tree.diagnostics_eq_nil_iff`.

An error is reported by a node. So what is looked at along a run of the parser is whether a node that
reports one has been made or begun, `Machine.Quiet`. A step makes one exactly if one of its actions
does, and the tokens that are left cannot be read from the goals if one does.
-/

namespace AvroIdl

open Element Grammar

/-- A node that reports no error. -/
def Element.Silent (l : Label) (_ : List Element) : Prop := (l.kind = .error && l.error.isSome) = false

namespace Element

mutual

theorem silent_of_unmarked {e : Element} (marked : e.All Marked) (clean : e.hasError = false) :
    e.All Silent := by
  cases e with
  | leaf => trivial
  | node l children =>
    have here := marked.1
    rw [Marked, show l.hasError = false from clean, eq_comm, Bool.or_eq_false_iff] at here
    refine ⟨by simp [Silent, here.1], silentOf_of_unmarked marked.2 here.2⟩

theorem silentOf_of_unmarked {es : List Element} (marked : AllOf Marked es)
    (clean : es.any hasError = false) : AllOf Silent es := by
  cases es with
  | nil => trivial
  | cons e rest =>
    rw [List.any_cons, Bool.or_eq_false_iff] at clean
    exact ⟨silent_of_unmarked marked.1 clean.1, silentOf_of_unmarked marked.2 clean.2⟩

end

theorem diagnostic?_eq_none (start : Nat) (l : Label) (children : List Element) :
    Node.diagnostic? ⟨start, l, children⟩ = none ↔ Silent l children := by
  unfold Node.diagnostic? Silent
  by_cases error : l.kind = .error <;> simp [Node.kind, error]

mutual

/-- Errors are looked for in marked nodes only, and all of them are found there. -/
theorem diagnosticsFrom_eq_nil {e : Element} (marked : e.All Marked) (start : Nat) :
    e.diagnosticsFrom start = [] ↔ e.All Silent := by
  cases e with
  | leaf => simp [diagnosticsFrom, All]
  | node l children =>
    rw [diagnosticsFrom]
    split_ifs with error
    · rw [List.append_eq_nil_iff, Option.toList_eq_nil_iff, diagnostic?_eq_none,
        diagnosticsFromAll_eq_nil marked.2 start]
      rfl
    · exact iff_of_true rfl (silent_of_unmarked marked (by simpa [hasError] using error))

theorem diagnosticsFromAll_eq_nil {es : List Element} (marked : AllOf Marked es) (start : Nat) :
    diagnosticsFromAll start es = [] ↔ AllOf Silent es := by
  cases es with
  | nil => simp [diagnosticsFromAll, AllOf]
  | cons e rest =>
    rw [diagnosticsFromAll, List.append_eq_nil_iff, diagnosticsFrom_eq_nil marked.1 start,
      diagnosticsFromAll_eq_nil marked.2]
    rfl

end

end Element

/-! ## Errors along a run -/

/-- Whether an open node reports an error. -/
def Frame.reports (f : Frame) : Bool := f.kind = .error && f.error.isSome

namespace Machine

/-- No error has been reported. -/
def Quiet (m : Machine) : Prop := AllOf Silent m.elements ∧ m.frames.any Frame.reports = false

theorem reports_onTop {m : Machine} {change : Frame → Frame}
    (same : ∀ f ∈ m.frames.head?, (change f).reports = f.reports) :
    (m.onTop change).frames.any Frame.reports = m.frames.any Frame.reports := by
  unfold onTop
  split
  · rfl
  next f below frames =>
    simp only [frames, List.any_cons]
    rw [same f (by simp [frames])]

theorem reports_flush (m : Machine) :
    m.flush.frames.any Frame.reports = m.frames.any Frame.reports :=
  reports_onTop fun _ _ => rfl

theorem reports_take (m : Machine) (t : Token) :
    (m.take t).frames.any Frame.reports = m.frames.any Frame.reports := by
  rw [← m.reports_flush]
  exact reports_onTop fun _ _ => rfl

theorem reports_takeName (m : Machine) (t : Token) :
    (m.takeName t).frames.any Frame.reports = m.frames.any Frame.reports := by
  rw [takeName, reports_take, ← m.reports_flush]
  exact reports_onTop fun _ _ => rfl

theorem quiet_leaf {m n : Machine} {t : Token}
    (elements : n.elements = m.elements ++ [Element.leaf t])
    (frames : n.frames.any Frame.reports = m.frames.any Frame.reports) : n.Quiet ↔ m.Quiet := by
  simp [Quiet, elements, frames, AllOf, All]

/-- An action reports an error or leaves things as they are. -/
theorem quiet_act {m : Machine} {a : Action} (enabled : a.Enabled m) :
    (m.act a).Quiet ↔ m.Quiet ∧ a.loud = false := by
  have inner (some : m.frames.tail ≠ []) : m.frames ≠ [] := fun none => some (by rw [none]; rfl)
  cases a with
  | begin kind error =>
    simp only [act, Quiet, elements_begin enabled, frames_begin, List.any_cons, reports_flush,
      Bool.or_eq_false_iff, Frame.reports, Action.loud]
    tauto
  | become kind =>
    obtain ⟨other, -, invalid⟩ := enabled
    have same : (m.become kind).elements = m.elements := elements_onTop fun _ => rfl
    have frames : (m.become kind).frames.any Frame.reports = m.frames.any Frame.reports :=
      reports_onTop fun f top => by simp [Frame.reports, invalid f top, other]
    simp [act, Quiet, same, frames, Action.loud]
  | becomeError error =>
    obtain ⟨some, invalid⟩ := enabled
    have same : (m.becomeError error).elements = m.elements := elements_onTop fun _ => rfl
    obtain ⟨f, below, hm⟩ := List.exists_cons_of_ne_nil (inner some)
    have kind : f.kind = .invalid := invalid f (by simp [hm])
    have frames : (m.becomeError error).frames.any Frame.reports =
        (error.isSome || below.any Frame.reports) := by
      simp [becomeError, onTop, hm, Frame.reports]
    simp only [act, Quiet, same, frames, hm, List.any_cons, Frame.reports, kind, Action.loud,
      Bool.or_eq_false_iff]
    simp
    tauto
  | wrapLast kind =>
    obtain ⟨_, f, top, l, children, others, hc, _⟩ := enabled
    obtain ⟨below, hm⟩ : ∃ below, m.frames = f :: below := List.head?_eq_some_iff.mp top
    have frames : (m.wrapLast kind).frames.any Frame.reports = m.frames.any Frame.reports := by
      simp [wrapLast, hm, hc, Frame.reports]
    simp [act, Quiet, elements_wrapLast hm (show f.children ≠ [] by simp [hc]), frames, Action.loud]
  | take t =>
    rw [show m.act (.take t) = m.take t from rfl,
      quiet_leaf (elements_take (inner enabled) t) (m.reports_take t)]
    simp [Action.loud]
  | takeName t =>
    rw [show m.act (.takeName t) = m.takeName t from rfl,
      quiet_leaf (elements_takeName (inner enabled.1) t) (m.reports_takeName t)]
    simp [Action.loud]
  | close =>
    obtain ⟨f, g, below, hm, after⟩ := close_frames enabled
    obtain ⟨old, new⟩ := elements_close hm
    have node : (m.ended f).All Silent ↔ f.reports = false ∧ AllOf Silent f.children := by
      simp [ended, All, Silent, Arena.nextLabel, Frame.reports]
    simp only [act, Quiet, old, new, after, hm, allOf_append, AllOf, node, allOf_reverse,
      List.any_cons, Bool.or_eq_false_iff, Action.loud, Frame.reports]
    tauto

theorem quiet_perform {m : Machine} {actions : List Action} (performs : m.Performs actions) :
    (m.perform actions).Quiet ↔ m.Quiet ∧ ∀ a ∈ actions, a.loud = false := by
  induction actions generalizing m with
  | nil => simp
  | cons a rest ih =>
    rw [perform_cons, ih performs.2, quiet_act performs.1]
    simp [and_assoc]

variable {origin : Origin} {base : Body}

/-- A step reports an error exactly if one of its actions does. -/
theorem quiet_step {m : Machine} (aligned : m.Aligned origin base) (t : Token) :
    (m.step t).Quiet ↔ m.Quiet ∧ ∀ a ∈ m.control.actions m.afterComma t, a.loud = false := by
  rw [step_eq]
  exact quiet_perform (aligned.performs t)

theorem quiet_hold (m : Machine) (t : Token) : (m.hold t).Quiet ↔ m.Quiet ∧ t.error = none := by
  unfold hold
  cases error : t.error with
  | none => simp [Quiet, elements, AllOf, All]
  | some cause =>
    refine iff_of_false ?_ (by simp)
    simp [Quiet, elements, AllOf, All, Silent, Arena.nextLabel]

theorem quiet_receive (m : Machine) (l : Lexeme) :
    (m.receive l).Quiet ↔ m.Quiet ∧ ∀ t ∈ l.leading, t.error = none := by
  unfold receive
  induction l.leading generalizing m with
  | nil => simp
  | cons t rest ih =>
    rw [List.foldl_cons, ih, quiet_hold]
    simp [and_assoc]

@[simp] theorem afterComma_receive (m : Machine) (l : Lexeme) :
    (m.receive l).afterComma = m.afterComma := by
  unfold afterComma
  rw [frames_receive]

/-- A token that is taken and nothing else is the newest child. -/
theorem afterComma_step {m : Machine} (aligned : m.Aligned origin base) {t : Token}
    (takes : m.control.actions m.afterComma t = [.take t]) :
    (m.step t).afterComma = decide (t.kind = .comma) := by
  have performs := aligned.performs t
  rw [takes] at performs
  have inner : m.frames.tail ≠ [] := performs.1
  rw [step_eq, takes]
  cases hm : m.frames with
  | nil => simp [hm] at inner
  | cons f below => simp [act, take, flush, onTop, hm, resume, afterComma]

end Machine

namespace Reading

/-- The token in sight and those after it, up to the end of the text. -/
def word (r : Reading) : List Token :=
  (r.token :: r.rest.map Lexeme.token).takeWhile fun t => t.kind ≠ .eof

theorem sight (r : Reading) : Sight r.token r.word := by
  unfold word
  by_cases eof : r.token.kind = .eof
  · rw [List.takeWhile_cons_of_neg (by simpa using eof)]
    exact .eof eof
  · rw [List.takeWhile_cons_of_pos (by simpa using eof)]
    exact .more eof

/-- None of the tokens that the grammar does not see is malformed. -/
def Clean (ls : List Lexeme) : Prop := ∀ l ∈ ls, ∀ t ∈ l.leading, t.error = none

/-- No error has been reported, and none is to come before the tokens that the grammar sees. -/
def Quiet (r : Reading) : Prop := r.machine.Quiet ∧ Clean r.rest

/-- What holds of a reading that has met no error. -/
structure Tidy (r : Reading) : Prop where
  steady : r.machine.Steady
  aligned : r.machine.Aligned .any .document
  tidy : r.machine.control.Tidy

theorem aligned_next {base : Body} {r r' : Reading} (h : r.machine.Aligned .any base)
    (next : Next r r') : r'.machine.Aligned .any base := by
  cases next with
  | stay => exact h.step _ fun _ _ _ => trivial
  | move => exact (h.step _ fun _ _ _ => trivial).receive _

theorem control_next {r r' : Reading} (next : Next r r') :
    r'.machine.control = r.machine.control.step r.machine.afterComma r.token := by
  rw [← Machine.control_step]
  cases next with
  | stay => rfl
  | move => rw [start, Machine.control_receive]

theorem Tidy.next {r r' : Reading} (h : r.Tidy) (next : Next r r')
    (quiet : ∀ a ∈ r.machine.control.actions r.machine.afterComma r.token, a.loud = false) :
    r'.Tidy := by
  refine ⟨?_, aligned_next h.aligned next, ?_⟩
  · unfold Machine.Steady
    rw [control_next next]
    exact Control.steady_step _ _ h.steady
  · rw [control_next next]
    exact h.tidy.step quiet

/-- What a step leaves to be read. -/
theorem word_next {r r' : Reading} (next : Next r r') (steady : r.machine.Steady) :
    r.word.drop ((r.machine.control.step r.machine.afterComma r.token).taken -
      r.machine.control.taken) = r'.word := by
  rw [← Machine.control_step]
  cases next with
  | @stay m t rest some stays =>
    have stays : (m.step t).control.taken - m.control.taken = 0 := by
      change (m.step t).taken - m.taken = 0
      omega
    simp only [stays, List.drop_zero]
    rfl
  | @move m t l rest takes =>
    have more : t.kind ≠ .eof := by
      intro eof
      have stays : (m.step t).taken = m.taken := steady.taken_eof eof
      omega
    have one : (m.step t).control.taken - m.control.taken = 1 := by
      change (m.step t).taken - m.taken = 1
      omega
    simp [one, word, start, more]

theorem goals_ne_nil {r r' : Reading} (next : Next r r') : r.machine.goals ≠ [] := by
  cases next with
  | stay some stays => exact some
  | @move m t l rest takes =>
    intro none
    have stops : m.step t = m := by simp [Machine.step, show m.goals = [] from none]
    rw [stops] at takes
    omega

/-- The tokens that are left can be read if the next step makes no error and the tokens left after
it can be read. -/
theorem Tidy.reads_next {r r' : Reading} (h : r.Tidy) (next : Next r r') :
    Reads r.machine.afterComma r.machine.goals r.word ↔
      (∀ a ∈ r.machine.control.actions r.machine.afterComma r.token, a.loud = false) ∧
        Reads r'.machine.afterComma r'.machine.goals r'.word := by
  have flag : r.machine.control.actions r.machine.afterComma r.token = [.take r.token] →
      r'.machine.afterComma = decide (r.token.kind = .comma) := by
    intro takes
    have after := Machine.afterComma_step h.aligned takes
    cases next with
    | stay => exact after
    | move => rwa [start, Machine.afterComma_receive]
  have goals : r'.machine.goals = (r.machine.control.step r.machine.afterComma r.token).goals :=
    congrArg Control.goals (control_next next)
  rw [← word_next next h.steady, goals]
  exact h.tidy.reads_step (goals_ne_nil next) r.sight flag

theorem quiet_start (m : Machine) (l : Lexeme) (rest : List Lexeme) :
    (start m l rest).Quiet ↔ m.Quiet ∧ Clean (l :: rest) := by
  have clean : Clean (l :: rest) ↔ (∀ t ∈ l.leading, t.error = none) ∧ Clean rest := by
    simp [Clean]
  rw [Quiet, start, Machine.quiet_receive, clean, and_assoc]

theorem quiet_next {r r' : Reading} (aligned : r.machine.Aligned .any .document)
    (next : Next r r') :
    r'.Quiet ↔ r.Quiet ∧
      ∀ a ∈ r.machine.control.actions r.machine.afterComma r.token, a.loud = false := by
  cases next with
  | @stay m t rest some stays =>
    simp only [Quiet]
    rw [Machine.quiet_step aligned t]
    tauto
  | @move m t l rest takes =>
    rw [quiet_start, Machine.quiet_step aligned t]
    simp only [Quiet]
    tauto

/-- An error that has been reported stays. -/
theorem quiet_of_reaches {r e : Reading} (way : Reaches r e)
    (aligned : r.machine.Aligned .any .document) (quiet : e.Quiet) : r.Quiet := by
  induction way using Relation.ReflTransGen.head_induction_on with
  | refl => exact quiet
  | head next _ ih => exact ((quiet_next aligned next).mp (ih (aligned_next aligned next))).1

theorem reads_start (m : Machine) (l : Lexeme) (rest : List Lexeme) :
    Reads (start m l rest).machine.afterComma (start m l rest).machine.goals (start m l rest).word ↔
      Reads m.afterComma m.goals
        (((l :: rest).map Lexeme.token).takeWhile fun t => t.kind ≠ .eof) := by
  rw [start, Machine.afterComma_receive, Machine.goals_receive]
  rfl

/-- A reading ends without an error exactly if it has met none, and the tokens that are left are
well-formed and can be read from the goals. -/
theorem quiet_iff {r e : Reading} (way : Reaches r e) (tidy : r.Tidy)
    (done : e.machine.goals = []) (eof : e.token.kind = .eof) :
    e.Quiet ↔ r.Quiet ∧ Reads r.machine.afterComma r.machine.goals r.word := by
  induction way using Relation.ReflTransGen.head_induction_on with
  | refl =>
    have word : e.word = [] := by simp [word, eof]
    simp [done, word, Reads]
  | @head r r' next way ih =>
    have reads := tidy.reads_next next
    have kept := quiet_next tidy.aligned next
    by_cases quiet : ∀ a ∈ r.machine.control.actions r.machine.afterComma r.token, a.loud = false
    · rw [ih (tidy.next next quiet), kept, reads]
      tauto
    · -- The step reports an error, which stays, and nothing can be read from the goals.
      refine iff_of_false (fun ends => ?_) fun ends => quiet (reads.mp ends.2).1
      exact quiet (kept.mp (quiet_of_reaches way (aligned_next tidy.aligned next) ends)).2

end Reading

/-! ## The tokens that the grammar sees -/

namespace Lexeme

/-- The tokens of some lexemes that the grammar does not see. -/
theorem forall_leading {P : Token → Prop} (leading ts : List Token) :
    (∀ l ∈ group leading ts, ∀ t ∈ l.leading, P t) ↔
      (∀ t ∈ leading, P t) ∧ ∀ t ∈ ts, (t.kind.isTrivia || t.kind = .error) = true → P t := by
  fun_induction group leading ts with
  | case1 leading => simp
  | case2 leading t rest unseen ih =>
    simp only [ih, List.forall_mem_cons, unseen, forall_const]
    tauto
  | case3 leading t rest seen ih =>
    simp only [ih, List.forall_mem_cons, List.mem_reverse, seen]
    simp

/-- The tokens of some lexemes that the grammar sees. -/
theorem map_token {leading ts : List Token} (there : ∀ t ∈ ts, t.kind ≠ .eof) :
    ((group leading ts).map token).takeWhile (fun t => t.kind ≠ .eof) =
      ts.filter fun t => !(t.kind.isTrivia || t.kind = .error) := by
  fun_induction group leading ts with
  | case1 leading => simp [Token.eof]
  | case2 leading t rest unseen ih =>
    rw [ih fun t mem => there t (.tail _ mem), List.filter_cons_of_neg (by simp [unseen])]
  | case3 leading t rest seen ih =>
    have more : t.kind ≠ .eof := there t List.mem_cons_self
    rw [List.filter_cons_of_pos (by simp [seen]), List.map_cons,
      List.takeWhile_cons_of_pos (by simpa using more), ih fun t mem => there t (.tail _ mem)]

end Lexeme

theorem reads_document (w : List Token) :
    Reads false [.items .document, .leftovers] w ↔ Derives (.part .document) w := by
  have document : Derives (.part .document) w ↔ Derives (.star (.part .item)) w := by
    constructor
    · intro h
      cases h with
      | part h => exact h
    · intro h
      exact .part h
  rw [document]
  change Matches [.star (.part .item)] w ↔ _
  rw [matches_cons]
  simp

/-- A document is read up to the end of the text. -/
theorem orderly_document : Orderly [.items .document, .leftovers] := by
  have ends {t : Token} {w : List Token} (sight : Sight t w) (more : t.kind ≠ .eof) : w ≠ [] := by
    cases sight with
    | eof eof => contradiction
    | more => exact List.cons_ne_nil _ _
  have none : Orderly [] := trivial
  have last : Orderly [.leftovers] := by
    refine none.cons rfl (by simp) ?_ (by simp)
    intro t w sight clash none
    exact ends sight (by simpa [Goal.clash] using clash) (matches_nil.mp none)
  refine last.cons rfl (by simp) ?_ (by simp)
  intro t w sight clash none
  exact ends sight (by simpa [Goal.clash] using clash) (matches_nil.mp none)

namespace Machine

theorem tidy_document (arena : Arena) (generation : UInt64) (l : Lexeme) (rest : List Lexeme) :
    (Reading.start (start arena generation 0 [.items .document, .leftovers]) l rest).Tidy := by
  refine ⟨(steady_start .document ..).receive l, (aligned_start .document ..).receive l, ?_⟩
  rw [Reading.start, control_receive]
  exact ⟨rfl, orderly_document, trivial⟩

/-- Reading a document ends without an error exactly if its tokens are well-formed and make up a
document of the grammar. -/
theorem quiet_document (arena : Arena) (generation : UInt64) (text : Bytes) :
    ((start arena generation 0 [.items .document, .leftovers]).run (lexemes text)).Quiet ↔
      (∀ t ∈ Token.all text, t.kind ≠ .error) ∧
        Derives (.part .document) ((Token.all text).filter fun t => !t.kind.isTrivia) := by
  obtain ⟨t, way, done, eof, -⟩ := document_reaches arena generation text
  obtain ⟨l, rest, hl, -⟩ := lexemes_eq_cons text
  simp only [Reading.ofText, hl] at way
  have ends := Reading.quiet_iff way (tidy_document arena generation l rest) (hl ▸ done) eof
  have quiet : (start arena generation 0 [.items .document, .leftovers]).Quiet := by
    simp [Quiet, start, elements, Frame.listed, AllOf, Frame.reports]
  -- The malformed tokens are among those that the grammar does not see.
  have clean : Reading.Clean (l :: rest) ↔ ∀ t ∈ Token.all text, t.kind ≠ .error := by
    rw [← hl, Reading.Clean, lexemes, Lexeme.forall_leading]
    constructor
    · intro h t mem error
      exact (Token.error_eq_none_iff mem).mp (h.2 t mem (by simp [error])) error
    · intro h
      exact ⟨by simp, fun t mem _ => (Token.error_eq_none_iff mem).mpr (h t mem)⟩
  have word : ((l :: rest).map Lexeme.token).takeWhile (fun t => t.kind ≠ .eof) =
      (Token.all text).filter fun t => !(t.kind.isTrivia || t.kind = .error) := by
    rw [← hl]
    exact Lexeme.map_token fun _ => Token.kind_ne_eof
  have same (proper : ∀ t ∈ Token.all text, t.kind ≠ .error) :
      (Token.all text).filter (fun t => !(t.kind.isTrivia || t.kind = .error)) =
        (Token.all text).filter fun t => !t.kind.isTrivia := by
    apply List.filter_congr
    intro t mem
    simp [proper t mem]
  have sentence (w : List Token) :
      Reads (start arena generation 0 [.items .document, .leftovers]).afterComma
        (start arena generation 0 [.items .document, .leftovers]).goals w ↔
        Derives (.part .document) w := reads_document w
  rw [Reading.quiet_start, and_iff_right quiet, clean, Reading.reads_start, word, sentence] at ends
  rw [hl]
  calc
    _ ↔ Reading.Quiet ⟨_, t, []⟩ := by simp [Reading.Quiet, Reading.Clean]
    _ ↔ _ := ends
    _ ↔ _ := and_congr_right fun proper => by rw [same proper]

end Machine

namespace Tree

/-- The tree of a text reports no error exactly if its tokens are well-formed and those that are no
trivia make up a document of the grammar. -/
theorem diagnostics_eq_nil_iff (text : Bytes) (opts : ParseOptions)
    (fits : text.length ≤ opts.maxSize) (small : text.length ≤ maxOffset) :
    (parse text opts).diagnostics = [] ↔
      (∀ t ∈ Token.all text, t.kind ≠ .error) ∧
        Derives (.part .document) ((Token.all text).filter fun t => !t.kind.isTrivia) := by
  have marked : (parse text opts).element.All Marked := (parseIn_lossless {} opts text).marked
  rw [diagnostics, diagnosticsFrom_eq_nil marked, ← Machine.quiet_document {} opts.generation text,
    parse, parseIn_eq {} fits small]
  obtain ⟨⟨f, hf, document⟩, _⟩ := Machine.run_document {} opts.generation text
  simp [element, All, Silent, Arena.nextLabel, Machine.Quiet, hf, Frame.reports, document]

/-- An enum with a comma after its last symbol is a document, and two commas there are an error. -/
theorem diagnostics_trailing_comma :
    (("enum E \x7b A, record, \x7d = A;" : Bytes).length ≤ maxOffset ∧
      Derives (.part .document)
        ((Token.all "enum E \x7b A, record, \x7d = A;").filter fun t => !t.kind.isTrivia)) ∧
    (("enum E \x7b A,, \x7d" : Bytes).length ≤ maxOffset ∧
      ¬ Derives (.part .document)
        ((Token.all "enum E \x7b A,, \x7d").filter fun t => !t.kind.isTrivia)) := by
  refine ⟨⟨by decide, ?_⟩, by decide, fun derives => ?_⟩
  · exact ((diagnostics_eq_nil_iff "enum E \x7b A, record, \x7d = A;" {} (by decide) (by decide)).mp
      (by decide +kernel)).2
  · have none := (diagnostics_eq_nil_iff "enum E \x7b A,, \x7d" {} (by decide) (by decide)).mpr
      ⟨by decide +kernel, derives⟩
    revert none
    decide +kernel

end Tree

end AvroIdl
