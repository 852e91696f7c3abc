import AvroIdl.Proofs.Parser.Embedding
import AvroIdl.Proofs.Token.Locality

/-!
# Where a reading stands

A reading of a text knows little of the text. What it has read so far and the token in sight decide
the rest:

* `Reading.replay`: the way to a reading is the same for every text that goes on differently after
  the token in sight;
* `Reading.eq_of_done`: all ways from one reading end in the same one;
* `Reading.Stands`: what holds of every reading on the way through a text. The goals remember
  numbers of tokens that have been taken, the bodies around are counted right, only trivia and
  malformed tokens are pending, and no statement begins with a dot right after a word.
-/

namespace AvroIdl

/-! ## Lexemes -/

namespace Lexeme

/-- Whether a token stands before the next one that the grammar sees. -/
def passes (t : Token) : Bool := t.kind.isTrivia || t.kind = .error

theorem group_cons_passes {leading rest : List Token} {t : Token} (h : passes t = true) :
    group leading (t :: rest) = group (t :: leading) rest := by
  rw [group, if_pos (by simpa [passes] using h)]

theorem group_cons_seen {leading rest : List Token} {t : Token} (h : passes t = false) :
    group leading (t :: rest) = ⟨leading.reverse, t⟩ :: group [] rest := by
  rw [group, if_neg (by simpa [passes] using h)]

/-- What stands before a token does not see it, and the token itself does not pass. -/
theorem group_passes {leading ts : List Token} (h : ∀ t ∈ leading, passes t = true) :
    ∀ l ∈ group leading ts, (∀ t ∈ l.leading, passes t = true) ∧ passes l.token = false := by
  fun_induction group leading ts with
  | case1 leading => simpa [passes, Token.eof, TokenKind.isTrivia] using h
  | case2 leading t rest trivia ih =>
    refine ih fun s mem => ?_
    rcases List.mem_cons.mp mem with rfl | mem
    · simpa [passes] using trivia
    · exact h s mem
  | case3 leading t rest seen ih =>
    rintro l (_ | ⟨_, mem⟩)
    · exact ⟨by simpa using h, by simpa [passes] using seen⟩
    · exact ih (by simp) l mem

theorem lexemes_passes {text : Bytes} {l : Lexeme} (mem : l ∈ lexemes text) :
    (∀ t ∈ l.leading, passes t = true) ∧ passes l.token = false :=
  group_passes (by simp) l mem

/-- After a token that the grammar sees the grouping begins anew. -/
theorem group_append {t : Token} (seen : passes t = false) (leading front : List Token) :
    ∃ ls, ∀ rest, group leading (front ++ t :: rest) = ls ++ group [] rest := by
  induction front generalizing leading with
  | nil => exact ⟨[⟨leading.reverse, t⟩], fun rest => group_cons_seen seen⟩
  | cons s front ih =>
    cases pass : passes s with
    | true =>
      obtain ⟨ls, h⟩ := ih (s :: leading)
      exact ⟨ls, fun rest => by rw [List.cons_append, group_cons_passes pass, h]⟩
    | false =>
      obtain ⟨ls, h⟩ := ih []
      exact ⟨⟨leading.reverse, s⟩ :: ls, fun rest => by
        rw [List.cons_append, group_cons_seen pass, h, List.cons_append]⟩

/-- Lexemes that follow another one in a text. -/
def Remain (ls : List Lexeme) : Prop := ls = [] ∨ ∃ ts, ls = group [] ts

theorem remain_of_group {leading ts : List Token} {front : List Lexeme} {l : Lexeme}
    {ls : List Lexeme} (h : group leading ts = front ++ l :: ls) : Remain ls := by
  fun_induction group leading ts generalizing front with
  | case1 leading =>
    cases front with
    | nil => exact .inl (List.cons.inj h).2.symm
    | cons => simp at h
  | case2 leading t rest _ ih => exact ih h
  | case3 leading t rest _ ih =>
    cases front with
    | nil => exact .inr ⟨rest, (List.cons.inj h).2.symm⟩
    | cons l' front => exact ih (List.cons.inj h).2

theorem tokens_eq_nil {ls : List Lexeme} (h : tokens ls = []) : ls = [] := by
  cases ls with
  | nil => rfl
  | cons l rest => simp [tokens] at h

/-- The tokens of remaining lexemes say how they are grouped. -/
theorem Remain.eq_of_tokens {ls ls' : List Lexeme} (h : Remain ls) (h' : Remain ls')
    (same : tokens ls = tokens ls') : ls = ls' := by
  rcases h with rfl | ⟨ts, rfl⟩
  · exact (tokens_eq_nil same.symm).symm
  · rcases h' with rfl | ⟨ts', rfl⟩
    · exact tokens_eq_nil same
    · obtain rfl : ts = ts' := by simpa [tokens_group] using same
      rfl

end Lexeme

/-- A list falls in one way into what satisfies a property and what follows from the first that does
not. -/
theorem append_cons_inj {p : Token → Bool} {as bs cs ds : List Token} {s t : Token}
    (ha : ∀ a ∈ as, p a = true) (hb : ∀ b ∈ bs, p b = true) (hs : p s = false) (ht : p t = false)
    (same : as ++ s :: cs = bs ++ t :: ds) : as = bs ∧ s = t ∧ cs = ds := by
  induction as generalizing bs with
  | nil =>
    cases bs with
    | nil => exact ⟨rfl, by simpa using same⟩
    | cons b bs =>
      obtain ⟨rfl, -⟩ := List.cons.inj same
      rw [hb s List.mem_cons_self] at hs
      contradiction
  | cons a as ih =>
    cases bs with
    | nil =>
      obtain ⟨rfl, -⟩ := List.cons.inj same
      rw [ha a List.mem_cons_self] at ht
      contradiction
    | cons b bs =>
      obtain ⟨rfl, rest⟩ := List.cons.inj same
      obtain ⟨rfl, rfl, rfl⟩ := ih (fun x mem => ha x (.tail _ mem)) (fun x mem => hb x (.tail _ mem))
        rest
      exact ⟨rfl, rfl, rfl⟩

namespace Reading

open Machine

/-! ## Ways -/

theorem Next.unique {r a b : Reading} (ha : Next r a) (hb : Next r b) : a = b := by
  cases ha with
  | stay _ stays =>
    cases hb with
    | stay => rfl
    | move takes => omega
  | move takes =>
    cases hb with
    | stay _ stays => omega
    | move => rfl

/-- Where nothing is left to do, the way ends. -/
theorem Next.goals_ne_nil {r r' : Reading} (h : Next r r') : r.machine.goals ≠ [] := by
  cases h with
  | stay some => exact some
  | @move m t l rest takes =>
    intro none
    have : m.step t = m := by simp [Machine.step, show m.goals = [] from none]
    rw [this] at takes
    omega

/-- All ways from one reading end in the same one. -/
theorem reaches_of_done {r a b : Reading} (ha : Reaches r a) (hb : Reaches r b)
    (done : b.machine.goals = []) : Reaches a b := by
  have unique : Relator.RightUnique Next := fun _ _ _ ha hb => ha.unique hb
  rcases Relation.ReflTransGen.total_of_right_unique unique ha hb with way | way
  · exact way
  · rcases way.cases_head with same | ⟨r', next, _⟩
    · rw [same]
    · exact absurd done next.goals_ne_nil

theorem eq_of_done {r a b : Reading} (ha : Reaches r a) (hb : Reaches r b)
    (done : a.machine.goals = []) (done' : b.machine.goals = []) : a = b := by
  rcases (reaches_of_done ha hb done').cases_head with same | ⟨r', next, _⟩
  · exact same
  · exact absurd done next.goals_ne_nil

/-- The way to a reading does not depend on the lexemes that follow there. -/
theorem replay {r r' : Reading} (way : Reaches r r') :
    ∃ read, r.rest = read ++ r'.rest ∧
      ∀ rest, Reaches ⟨r.machine, r.token, read ++ rest⟩ ⟨r'.machine, r'.token, rest⟩ := by
  induction way with
  | refl => exact ⟨[], rfl, fun rest => .refl⟩
  | tail _ next ih =>
    obtain ⟨read, split, way⟩ := ih
    cases next with
    | stay some stays => exact ⟨read, split, fun rest => (way rest).tail (.stay some stays)⟩
    | @move m t l ls takes =>
      refine ⟨read ++ [l], by simpa [start] using split, fun rest => ?_⟩
      rw [List.append_assoc]
      exact (way _).tail (.move takes)

/-- The number of tokens taken never falls. -/
theorem Next.taken_le {r r' : Reading} (h : Next r r') : r.machine.taken ≤ r'.machine.taken := by
  cases h with
  | stay _ stays => exact Nat.le_of_eq stays.symm
  | move takes =>
    simp only [start, taken_receive]
    omega

theorem taken_le {r r' : Reading} (way : Reaches r r') : r.machine.taken ≤ r'.machine.taken := by
  induction way with
  | refl => exact Nat.le_refl _
  | tail _ next ih => exact Nat.le_trans ih next.taken_le

/-- As long as no token is taken, the same one is in sight. -/
theorem same_of_taken {r r' : Reading} (way : Reaches r r')
    (none : r'.machine.taken = r.machine.taken) : r'.token = r.token ∧ r'.rest = r.rest := by
  induction way with
  | refl => exact ⟨rfl, rfl⟩
  | tail before next ih =>
    have le := taken_le before
    cases next with
    | stay _ stays => exact ih (stays.symm.trans none)
    | move takes =>
      simp only [start, taken_receive] at none
      dsimp only at le
      omega

end Reading

/-! ## Counters -/

namespace Control

/-- The bodies around are counted right, and goals remember numbers of tokens that have been taken. -/
structure Counts (c : Control) : Prop where
  blocks : c.blocks = c.goals.count .leaveBlock
  before : ∀ body n, .moreItems body n ∈ c.goals → n ≤ c.taken

variable {c : Control}

theorem Counts.push (h : c.Counts) {goals : List Goal} (timeless : goals.all Goal.timeless = true)
    (inside : goals.count .leaveBlock = 0) : (c.push goals).Counts := by
  refine ⟨?_, fun body n mem => ?_⟩
  · simpa [Control.push, inside] using h.blocks
  · rcases List.mem_append.mp mem with mem | mem
    · have := List.all_eq_true.mp timeless _ mem
      contradiction
    · exact h.before body n mem

theorem Counts.count (h : c.Counts) : c.count.Counts :=
  ⟨h.blocks, fun body n mem => Nat.le_succ_of_le (h.before body n mem)⟩

theorem Counts.fail (h : c.Counts) : c.fail.Counts := ⟨h.blocks, h.before⟩

theorem Counts.recover (h : c.Counts) (t : Token) (skipped : Option Skipped) :
    (c.recover t skipped).Counts := by
  fun_cases Control.recover c t skipped <;> first | exact h | exact h.push rfl rfl

theorem Counts.openBrace (h : c.Counts) (t : Token) {inside : List Goal}
    (timeless : inside.all Goal.timeless = true) (plain : inside.count .leaveBlock = 0) :
    (c.openBrace t inside).Counts := by
  unfold Control.openBrace
  split_ifs
  · exact h.count.push timeless plain
  · exact h.recover t _

/-- What counts right counts right after a step, where the goal that is worked on has been taken off
the stack. -/
theorem Counts.work {g : Goal} (h : ({ c with goals := g :: c.goals } : Control).Counts)
    (comma : Bool) (t : Token) : (c.work comma t g).Counts := by
  have before : ∀ body n, .moreItems body n ∈ c.goals → n ≤ c.taken := fun body n mem =>
    h.before body n (.tail _ mem)
  have rest (plain : g ≠ .leaveBlock) : c.Counts :=
    ⟨by rw [show c.blocks = _ from h.blocks, List.count_cons_of_ne plain], before⟩
  cases g with
  | leaveBlock =>
    refine ⟨?_, before⟩
    have := h.blocks
    simp only [List.count_cons_self] at this
    simp only [Control.work]
    omega
  | items body =>
    have := rest (by simp)
    simp only [Control.work]
    split_ifs
    · exact this
    · refine ⟨by simpa [Control.push] using this.blocks, fun body' n mem => ?_⟩
      simp only [Control.push, List.cons_append, List.nil_append, List.mem_cons] at mem
      rcases mem with mem | mem | mem
      · contradiction
      · cases mem
        exact Nat.le_refl _
      · exact before body' n mem
  | item body =>
    have := rest (by simp)
    simp only [Control.work]
    fun_cases Control.item c t body <;>
      first | exact this.count.push rfl rfl | exact this.push rfl rfl
  | declaration body =>
    have := rest (by simp)
    simp only [Control.work]
    fun_cases Control.declaration c t body <;>
      first | exact this.recover t _ | exact this.count.push rfl rfl | exact this.push rfl rfl
  | enumBody => exact (rest (by simp)).openBrace t rfl rfl
  | block body =>
    have := rest (by simp)
    simp only [Control.work]
    split_ifs with curl
    · simp only [Control.openBrace, if_pos curl]
      refine ⟨by simpa [Control.push, Control.count] using this.blocks, fun body' n mem => ?_⟩
      simp only [Control.push, Control.count, List.cons_append, List.nil_append, List.mem_cons] at mem
      simp only [reduceCtorEq, false_or] at mem
      exact Nat.le_succ_of_le (before body' n mem)
    · simp only [Control.openBrace, if_neg curl]
      exact this.recover t _
  | group skipped closers =>
    have := rest (by simp)
    simp only [Control.work]
    fun_cases Control.group c skipped closers t <;>
      first | exact this.count | exact this.count.push rfl rfl | exact this.push rfl rfl
  | skip skipped any =>
    have := rest (by simp)
    cases skipped <;> simp only [Control.work, skipOne] <;> split_ifs <;> (try split) <;>
      first | exact this | exact this.count | exact this.count.push rfl rfl
  | _ =>
    have := rest (by simp)
    simp only [Control.work, typeBody]
    (try split_ifs) <;>
      first
        | exact this
        | exact this.count
        | exact this.fail
        | exact this.fail.push rfl rfl
        | exact this.count.push rfl rfl
        | exact this.push rfl rfl

theorem Counts.unwind {g : Goal} (h : ({ c with goals := g :: c.goals } : Control).Counts)
    (t : Token) : (c.unwind t g).Counts := by
  have before : ∀ body n, .moreItems body n ∈ c.goals → n ≤ c.taken := fun body n mem =>
    h.before body n (.tail _ mem)
  have rest (plain : g ≠ .leaveBlock) : c.Counts :=
    ⟨by rw [show c.blocks = _ from h.blocks, List.count_cons_of_ne plain], before⟩
  cases g with
  | leaveBlock =>
    refine ⟨?_, before⟩
    have := h.blocks
    simp only [List.count_cons_self] at this
    simp only [Control.unwind]
    omega
  | recover skipped =>
    have := rest (by simp)
    exact Counts.recover (c := { c with ok := true }) ⟨this.blocks, this.before⟩ t skipped
  | _ => exact rest (by simp)

theorem Counts.step (h : c.Counts) (comma : Bool) (t : Token) : (c.step comma t).Counts := by
  obtain ⟨goals, ok, taken, blocks⟩ := c
  cases goals with
  | nil => exact h
  | cons g rest =>
    cases ok with
    | true => exact Counts.work (c := ⟨rest, true, taken, blocks⟩) h comma t
    | false => exact Counts.unwind (c := ⟨rest, false, taken, blocks⟩) h t

/-- States with the same goals go on in the same way, if each has taken a token since the statements
that it remembers began. -/
theorem Counts.norm_eq {d : Control} (hc : c.Counts) (hd : d.Counts) (goals : c.goals = d.goals)
    (ok : c.ok = d.ok)
    (past : ∀ body n, .moreItems body n ∈ c.goals → n < c.taken ∧ n < d.taken) :
    c.norm = d.norm := by
  refine norm_eq_iff.mpr ⟨?_, ok, by rw [hc.blocks, hd.blocks, goals]⟩
  rw [← goals]
  refine List.map_congr_left fun g mem => ?_
  cases g with
  | moreItems body n =>
    obtain ⟨lt, lt'⟩ := past body n mem
    simp only [Goal.since, Goal.moreItems.injEq, true_and]
    omega
  | _ => rfl

/-! ## Dots

A dot begins no statement, but a field may begin with one, which is then skipped. Behind a word or a
number the dot is skipped as part of the statement that they belong to. -/

open Goal (Backed Firm takesWord)

/-- What takes a word that begins no declaration takes a dot. -/
theorem takesWord_step {t : Token} (dot : t.kind = .dot) {comma : Bool}
    (h : takesWord false c.ok c.goals = true) (stays : (c.step comma t).taken = c.taken) :
    takesWord false (c.step comma t).ok (c.step comma t).goals = true := by
  have word (k : Keyword) : t.is k = false := by simp [Token.is, dot]
  have plain : t.beginsDeclaration = false ∧ t.beginsType = false ∧ t.beginsNamedType = false ∧
      t.endsListItem = false ∧ t.isName = false ∧ t.closer? = none ∧ t.isCloser = false ∧
      t.isJsonLiteral = false := by
    simp [Token.beginsDeclaration, Token.beginsType, Token.beginsNamedType, Token.endsListItem,
      Token.isName, Token.closer?, Token.isCloser, Token.isJsonLiteral, dot, word]
  have going (any : Bool) (d : Control) : d.atStatementEnd any t = false := by
    simp [atStatementEnd, dot, plain]
  obtain ⟨goals, ok, taken, blocks⟩ := c
  cases goals with
  | nil => cases h
  | cons g rest =>
    cases ok with
    | false =>
      cases g with
      | recover skipped =>
        rcases skipped with _ | _ | _ <;>
          simp_all [step, unwind, recover, takesWord, push]
      | _ => simp_all [step, unwind, takesWord]
    | true =>
      cases g with
      | skip skipped any =>
        cases any <;> cases skipped <;> simp_all [step, work, skipOne, push, count, takesWord]
      | group skipped closers => simp_all [step, work, group, push, count, takesWord]
      | item body => cases h
      | block body => simp_all [step, work, openBrace, recover, push, takesWord]
      | mark kind =>
        simp only [step, work, if_true] at stays ⊢
        split_ifs at stays ⊢ <;> simp_all [count, fail, takesWord]
      | _ =>
        simp_all [step, work, declaration, openBrace, recover, typeBody, push, count, fail,
          takesWord]

/-- Behind a word or a number there is something that takes another word. -/
theorem takesWord_of_taken {t : Token} (joins : t.kind.joinsDot = true) {comma : Bool}
    (backed : Backed c.goals) (takes : (c.step comma t).taken = c.taken + 1) :
    takesWord false (c.step comma t).ok (c.step comma t).goals = true := by
  have kinds : t.kind ≠ .semi ∧ t.kind ≠ .closeCurl ∧ t.kind ≠ .openCurl ∧ t.kind ≠ .comma ∧
      t.kind ≠ .atSign ∧ t.kind ≠ .eq ∧ t.kind ≠ .question ∧ t.kind ≠ .stringLit := by
    refine ⟨?_, ?_, ?_, ?_, ?_, ?_, ?_, ?_⟩ <;> rintro e <;> rw [e] at joins <;> contradiction
  obtain ⟨goals, ok, taken, blocks⟩ := c
  cases goals with
  | nil => simp [step] at takes
  | cons g rest =>
    obtain ⟨hg, hr⟩ := backed
    cases ok with
    | false =>
      have stays := taken_unwind ⟨rest, false, taken, blocks⟩ t g
      have : (unwind ⟨rest, false, taken, blocks⟩ t g).taken = taken + 1 := takes
      dsimp only at stays
      omega
    | true =>
      simp only [step, if_true] at takes ⊢
      cases g with
      | item body =>
        simp only [work] at takes ⊢
        fun_cases item ⟨rest, true, taken, blocks⟩ t body <;>
          simp_all [push, count, importRest, takesWord, item]
      | declaration body =>
        simp only [work] at takes ⊢
        fun_cases declaration ⟨rest, true, taken, blocks⟩ t body
        case case8 => simp_all [declaration]
        all_goals simp [push, count, Machine.messageRest, takesWord]
      | enumBody => simp_all [work, openBrace]
      | block body => simp_all [work, openBrace]
      | group skipped closers =>
        simp only [work] at takes ⊢
        cases skipped <;> fun_cases group ⟨rest, true, taken, blocks⟩ _ closers t <;>
          simp_all [push, count, takesWord]
      | skip skipped any =>
        cases skipped <;> simp only [work, skipOne] at takes ⊢ <;> split_ifs at takes ⊢ <;>
          (try split) <;> simp_all [push, count, takesWord]
      | mark kind =>
        simp only [work] at takes ⊢
        split_ifs at takes ⊢ with same
        · subst same
          have firm : Firm rest := by
            revert hg
            cases hk : t.kind <;> simp_all [Goal.BackedBy]
          exact firm false true
        · simp [fail] at takes
      | _ =>
        simp only [Goal.BackedBy, Firm, Bool.forall_bool] at hg
        simp only [work, typeBody] at takes ⊢
        (try split_ifs at takes ⊢) <;> simp_all [push, count, fail, takesWord]

end Control

/-! ## What waits -/

namespace Machine

/-- What a token becomes that the grammar does not see, without numbers, stamps, widths and marks. -/
def heldForm (t : Token) : Element :=
  match t.error with
  | none => .leaf t
  | some cause =>
    .node { id := 0, kind := .error, generation := 0, width := 0, hasError := false, name := none,
            error := some (.lexical cause t.text) } [.leaf t]

/-- Only tokens that the grammar does not see are pending. -/
structure Held (m : Machine) : Prop where
  forms : m.pending.map Element.form = (Element.tokensOf m.pending).map heldForm
  passes : ∀ t ∈ Element.tokensOf m.pending, Lexeme.passes t = true

theorem Held.hold {m : Machine} (h : m.Held) {t : Token} (pass : Lexeme.passes t = true) :
    (m.hold t).Held := by
  have tokens : Element.tokensOf (m.hold t).pending = Element.tokensOf m.pending ++ [t] := by
    unfold Machine.hold
    split <;> simp [Element.tokensOf, Element.tokens]
  have forms : (m.hold t).pending.map Element.form = m.pending.map Element.form ++ [heldForm t] := by
    unfold Machine.hold heldForm
    cases t.error <;> simp [Label.form, Arena.nextLabel]
  refine ⟨by rw [forms, tokens, h.forms, List.map_append, List.map_singleton], fun s mem => ?_⟩
  rw [tokens, List.mem_append, List.mem_singleton] at mem
  rcases mem with mem | rfl
  · exact h.passes s mem
  · exact pass

theorem Held.receive {m : Machine} (h : m.Held) {l : Lexeme}
    (pass : ∀ t ∈ l.leading, Lexeme.passes t = true) : (m.receive l).Held := by
  unfold Machine.receive
  generalize l.leading = ts at pass
  induction ts generalizing m with
  | nil => exact h
  | cons t rest ih =>
    exact ih (h.hold (pass t List.mem_cons_self)) fun s mem => pass s (.tail _ mem)

@[simp] theorem pending_onTop (m : Machine) (change : Frame → Frame) :
    (m.onTop change).pending = m.pending := by
  unfold onTop; split <;> rfl

/-- What is pending stays, or becomes part of the innermost node. -/
theorem pending_act (m : Machine) (a : Action) :
    (m.act a).pending = m.pending ∨ (m.act a).pending = [] := by
  cases a with
  | begin | take | takeName => exact .inr (by simp [act, begin, take, takeName, flush])
  | become | becomeError => exact .inl (m.pending_onTop _)
  | wrapLast kind =>
    refine .inl ?_
    simp only [act, wrapLast]
    split
    · split <;> rfl
    · rfl
  | close =>
    refine .inl ?_
    simp only [act, close]
    split <;> rfl

theorem pending_perform (m : Machine) (actions : List Action) :
    (m.perform actions).pending = m.pending ∨ (m.perform actions).pending = [] := by
  induction actions generalizing m with
  | nil => exact .inl rfl
  | cons a rest ih =>
    rcases ih (m.act a) with same | none
    · rcases m.pending_act a with same' | none'
      · exact .inl (same.trans same')
      · exact .inr (same.trans none')
    · exact .inr none

theorem Held.step {m : Machine} (h : m.Held) (t : Token) : (m.step t).Held := by
  have waits : (m.step t).pending = m.pending ∨ (m.step t).pending = [] := by
    rw [step_eq]
    exact m.pending_perform _
  rcases waits with same | none
  · exact ⟨by rw [same, h.forms], by rw [same]; exact h.passes⟩
  · exact ⟨by rw [none]; rfl, by rw [none]; nofun⟩

end Machine

/-! ## Readings of a text -/

namespace Reading

open Machine

/-- What holds of every reading on the way through a text. -/
structure Stands (lo : Nat) (generation : UInt64) (base : Body) (text : Bytes) (r : Reading) :
    Prop where
  sound : r.Sound lo generation base (Token.all text ++ [.eof])
  steady : r.machine.Steady
  /-- The lexeme of the token in sight and those after it are the last ones of the text. -/
  follows : ∃ read l, lexemes text = read ++ l :: r.rest ∧ l.token = r.token
  held : r.machine.Held
  /-- A dot right after a word or a number belongs to their statement. -/
  dots : r.token.kind = .dot →
    ∀ s ∈ (Element.tokensOf r.machine.elements).getLast?, s.kind.joinsDot = true →
      Goal.takesWord false r.machine.ok r.machine.goals = true

variable {lo : Nat} {generation : UInt64} {base : Body} {text : Bytes} {r r' : Reading}

/-- What passes before a token that the grammar sees is no word and no number. -/
theorem not_joinsDot_of_passes {t : Token} (h : Lexeme.passes t = true) :
    t.kind.joinsDot = false := by
  cases hk : t.kind <;> simp_all [Lexeme.passes, TokenKind.isTrivia, TokenKind.joinsDot]

theorem Stands.next (h : r.Stands lo generation base text) (next : Next r r') :
    r'.Stands lo generation base text := by
  have sound := h.sound.next next
  have aligned := h.sound.aligned
  obtain ⟨read, l, split, token⟩ := h.follows
  cases next with
  | @stay m t rest some stays =>
    refine ⟨sound, h.steady.step t, ⟨read, l, split, token⟩, h.held.step t, fun dot s last joins => ?_⟩
    obtain ⟨-, same⟩ | ⟨goes, -⟩ := tokens_step (m := m) aligned t
    · have takes := h.dots dot s (by simpa only [same] using last) joins
      change (m.step t).control.taken = m.control.taken at stays
      rw [control_step] at stays
      have kept := Control.takesWord_step (c := m.control) dot takes stays
      rwa [← control_step] at kept
    · omega
  | @move m t l' rest takes =>
    obtain ⟨pass, -⟩ := Lexeme.lexemes_passes (show l' ∈ lexemes text by simp [split])
    refine ⟨sound, (h.steady.step t).receive l', ⟨read ++ [l], l', by simpa [start] using split, rfl⟩,
      (h.held.step t).receive pass, fun dot s last joins => ?_⟩
    obtain ⟨stays, -⟩ | ⟨-, more⟩ := tokens_step (m := m) aligned t
    · omega
    · simp only [start, tokens_receive, more] at last
      cases leading : l'.leading with
      | nil =>
        obtain rfl : t = s := by simpa [leading] using last
        change (m.step t).control.taken = m.control.taken + 1 at takes
        rw [control_step] at takes
        have kept := Control.takesWord_of_taken (c := m.control) joins h.steady.backed takes
        rw [← control_step] at kept
        simp only [start, ok_receive, goals_receive]
        exact kept
      | cons a others =>
        -- Trivia stand between the token that was taken and the dot.
        have passed : s ∈ l'.leading := by
          rw [leading, List.getLast?_append_of_ne_nil _ (by simp), ← leading] at last
          exact List.mem_of_getLast? last
        rw [not_joinsDot_of_passes (pass s passed)] at joins
        contradiction

theorem Stands.reaches (h : r.Stands lo generation base text) (way : Reaches r r') :
    r'.Stands lo generation base text := by
  induction way with
  | refl => exact h
  | tail _ next ih => exact ih.next next

theorem stands_ofText {goals : List Goal} (task : Goal.Task base goals) (arena : Arena)
    (generation : UInt64) (blocks : Nat) (text : Bytes) :
    (ofText (Machine.start arena generation blocks goals) text).Stands arena.nodes generation base
      text := by
  obtain ⟨steady, sound⟩ := sound_ofText task arena generation blocks text
  obtain ⟨l, rest, hl, -⟩ := lexemes_eq_cons text
  obtain ⟨pass, -⟩ := Lexeme.lexemes_passes (show l ∈ lexemes text by simp [hl])
  have here : ofText (Machine.start arena generation blocks goals) text =
      Reading.start (Machine.start arena generation blocks goals) l rest := by
    unfold ofText
    rw [hl]
  rw [here] at steady sound ⊢
  have held : (Machine.start arena generation blocks goals).Held :=
    ⟨rfl, by simp [Machine.start, Element.tokensOf]⟩
  refine ⟨sound, steady, ⟨[], l, hl, rfl⟩, held.receive pass, fun _ s last joins => ?_⟩
  have passed : s ∈ l.leading := by
    simp only [Reading.start, tokens_receive] at last
    exact List.mem_of_getLast? (by simpa [Machine.start, elements, Frame.listed, Element.tokensOf]
      using last)
  rw [not_joinsDot_of_passes (pass s passed)] at joins
  contradiction

namespace Stands

/-- The grammar sees the token in sight. -/
theorem seen (h : r.Stands lo generation base text) : Lexeme.passes r.token = false := by
  obtain ⟨read, l, split, token⟩ := h.follows
  rw [← token]
  exact (Lexeme.lexemes_passes (show l ∈ lexemes text by simp [split])).2

theorem remain (h : r.Stands lo generation base text) : Lexeme.Remain r.rest := by
  obtain ⟨read, l, split, -⟩ := h.follows
  exact Lexeme.remain_of_group split

/-- No statement begins with a dot right after a word or a number. -/
theorem apart (h : r.Stands lo generation base text) {body : Body} {goals : List Goal}
    (hg : r.machine.goals = .item body :: goals) (dot : r.token.kind = .dot) :
    ∀ s ∈ (Element.tokensOf r.machine.elements).getLast?, s.kind.joinsDot = false := by
  intro s last
  cases joins : s.kind.joinsDot with
  | false => rfl
  | true =>
    have takes := h.dots dot s last joins
    rw [hg] at takes
    cases r.machine.ok <;> contradiction

/-- There is no error that has not been dealt with when a statement begins. -/
theorem ok (h : r.Stands lo generation base text) {body : Body} {goals : List Goal}
    (hg : r.machine.goals = .item body :: goals) : r.machine.ok = true := by
  cases failed : r.machine.ok with
  | true => rfl
  | false =>
    have guard := h.steady.guarded failed
    rw [show r.machine.control.goals = _ from hg] at guard
    contradiction

/-- The tokens of the text after the one in sight. -/
theorem tokens_eq (h : r.Stands lo generation base text) (more : r.token.kind ≠ .eof) :
    ∃ after, Token.all text = Element.tokensOf r.machine.elements ++ r.token :: after ∧
      Lexeme.tokens r.rest = after ++ [Token.eof] := by
  have whole := h.sound.whole
  rcases List.eq_nil_or_concat (Lexeme.tokens r.rest) with none | ⟨after, last, rest⟩
  · rw [none] at whole
    have last : r.token = .eof := by simpa using (List.append_inj' whole rfl).2
    exact absurd (by rw [last]; rfl) more
  · rw [List.concat_eq_append] at rest
    rw [rest, ← List.cons_append, ← List.append_assoc] at whole
    obtain ⟨all, eof⟩ := List.append_inj' whole rfl
    exact ⟨after, all.symm, by rw [rest, eof]⟩

/-- A reading on the way through a text is on the way through every other text with the same tokens
up to the one in sight. -/
theorem replay_text (h : r.Stands lo generation base text) {m : Machine}
    (way : Reaches (ofText m text) r) (more : r.token.kind ≠ .eof) {text' : Bytes}
    {after : List Token}
    (same : Token.all text' = Element.tokensOf r.machine.elements ++ r.token :: after) :
    Reaches (ofText m text') ⟨r.machine, r.token, Lexeme.group [] after⟩ := by
  obtain ⟨before, tokens, rest⟩ := h.tokens_eq more
  obtain ⟨ls, grouped⟩ := Lexeme.group_append h.seen [] (Element.tokensOf r.machine.elements)
  obtain ⟨l, others, hl, -⟩ := lexemes_eq_cons text
  have start : ofText m text = ⟨m.receive l, l.token, others⟩ := by
    simp only [ofText, hl]
    rfl
  rw [start] at way
  obtain ⟨read, split, again⟩ := replay way
  -- Up to the token in sight both texts have the same lexemes.
  have remains : r.rest = Lexeme.group [] before :=
    h.remain.eq_of_tokens (.inr ⟨before, rfl⟩) (by rw [rest, Lexeme.tokens_group]; simp)
  have common : ls = l :: read := by
    have whole : lexemes text = ls ++ Lexeme.group [] before := by
      rw [lexemes, tokens, grouped]
    rw [hl, show others = read ++ r.rest from split, remains, ← List.cons_append] at whole
    exact (List.append_cancel_right whole).symm
  have start' : ofText m text' = ⟨m.receive l, l.token, read ++ Lexeme.group [] after⟩ := by
    have whole : lexemes text' = l :: (read ++ Lexeme.group [] after) := by
      rw [lexemes, same, grouped, common, List.cons_append]
    simp only [ofText, whole]
    rfl
  rw [start']
  exact again _

/-- Readings of two texts that go on with the same tokens have the same lexemes before them. -/
theorem same_sight {lo' : Nat} {generation' : UInt64} {base' : Body} {text' : Bytes}
    (h : r.Stands lo generation base text) (h' : r'.Stands lo' generation' base' text')
    (same : Element.tokensOf r.machine.pending ++ r.token :: Lexeme.tokens r.rest =
      Element.tokensOf r'.machine.pending ++ r'.token :: Lexeme.tokens r'.rest) :
    r.machine.pending.map Element.form = r'.machine.pending.map Element.form ∧
      r.token = r'.token ∧ r.rest = r'.rest := by
  obtain ⟨waits, token, rest⟩ := append_cons_inj h.held.passes h'.held.passes h.seen h'.seen same
  exact ⟨by rw [h.held.forms, h'.held.forms, waits], token, h.remain.eq_of_tokens h'.remain rest⟩

end Stands

theorem tokens_reaches (aligned : r.machine.Aligned .any base) (way : Reaches r r') :
    Element.tokensOf r'.machine.elements ++ r'.token :: Lexeme.tokens r'.rest =
      Element.tokensOf r.machine.elements ++ r.token :: Lexeme.tokens r.rest := by
  induction way with
  | refl => rfl
  | tail before next ih => exact (tokens_next (Aligned.reaches before aligned) next).trans ih

end Reading

end AvroIdl
