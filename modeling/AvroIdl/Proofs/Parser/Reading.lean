import AvroIdl.Proofs.Parser.Stack
import Mathlib.Logic.Relation

/-!
# Readings

A reading is the parser with a token in sight and the lexemes that follow it. It goes on from step to
step, and from token to token. A run of the parser is the reading that it ends with:

* `Machine.run_ofText`: a run over a text goes through readings, one step after the other, until
  nothing is left to do;
* `Reading.Reaches.invariant`: what every step and every token keep is kept along the way.
-/

namespace AvroIdl

/-- The parser with a token in sight, and the lexemes after it. -/
structure Reading where
  machine : Machine
  token : Token
  rest : List Lexeme

/-- Lexemes up to the end of the text. -/
def Lexeme.Ended : List Lexeme → Prop
  | [] => False
  | [l] => l.token.kind = .eof
  | _ :: rest => Ended rest

namespace Reading

/-- The parser before its first lexeme turns to it. -/
def start (m : Machine) (l : Lexeme) (rest : List Lexeme) : Reading := ⟨m.receive l, l.token, rest⟩

/-- One step, after which the next lexeme is read if the token has been taken. -/
inductive Next : Reading → Reading → Prop
  | stay {m : Machine} {t : Token} {rest : List Lexeme} (some : m.goals ≠ [])
    (stays : (m.step t).taken = m.taken) : Next ⟨m, t, rest⟩ ⟨m.step t, t, rest⟩
  | move {m : Machine} {t : Token} {l : Lexeme} {rest : List Lexeme}
    (takes : (m.step t).taken = m.taken + 1) : Next ⟨m, t, l :: rest⟩ (start (m.step t) l rest)

/-- Any number of steps. -/
abbrev Reaches : Reading → Reading → Prop := Relation.ReflTransGen Next

theorem Reaches.invariant {P : Machine → Prop} {r r' : Reading} (h : Reaches r r')
    (step : ∀ m t, P m → P (m.step t)) (receive : ∀ m l, P m → P (m.receive l))
    (hr : P r.machine) : P r'.machine := by
  induction h with
  | refl => exact hr
  | tail _ next ih =>
    cases next with
    | stay => exact step _ _ ih
    | move => exact receive _ _ (step _ _ ih)

end Reading

namespace Machine

@[simp] theorem taken_receive (m : Machine) (l : Lexeme) : (m.receive l).taken = m.taken :=
  congrArg Control.taken (m.control_receive l)

@[simp] theorem goals_receive (m : Machine) (l : Lexeme) : (m.receive l).goals = m.goals :=
  congrArg Control.goals (m.control_receive l)

@[simp] theorem ok_receive (m : Machine) (l : Lexeme) : (m.receive l).ok = m.ok :=
  congrArg Control.ok (m.control_receive l)

@[simp] theorem blocks_receive (m : Machine) (l : Lexeme) : (m.receive l).blocks = m.blocks :=
  congrArg Control.blocks (m.control_receive l)

/-- A step takes the token in sight or none. -/
theorem taken_step (m : Machine) (t : Token) :
    (m.step t).taken = m.taken ∨ (m.step t).taken = m.taken + 1 := by
  have h := m.control.taken_step m.afterComma t
  rwa [← control_step] at h

theorem weight_step {m : Machine} {t : Token} (some : m.goals ≠ [])
    (stays : (m.step t).taken = m.taken) : (m.step t).weight < m.weight := by
  have h := Control.weight_step (c := m.control) m.afterComma (t := t) some
  rw [← control_step] at h
  exact h stays

theorem weight_pos {m : Machine} (some : m.goals ≠ []) : 0 < m.weight := by
  unfold weight
  cases h : m.goals with
  | nil => exact absurd h some
  | cons g rest =>
    have : 0 < g.weight m.taken := by
      cases g <;> simp [Goal.weight]
      split <;> omega
    simp only [List.foldr_cons]
    omega

/-- The goals of the parser are as the automaton keeps them. -/
def Steady (m : Machine) : Prop := m.control.Steady

theorem Steady.step {m : Machine} (h : m.Steady) (t : Token) : (m.step t).Steady := by
  unfold Steady
  rw [control_step]
  exact Control.steady_step _ t h

theorem Steady.receive {m : Machine} (h : m.Steady) (l : Lexeme) : (m.receive l).Steady := by
  unfold Steady
  rw [control_receive]
  exact h

theorem Steady.taken_eof {m : Machine} (h : m.Steady) {t : Token} (eof : t.kind = .eof) :
    (m.step t).taken = m.taken := by
  have := Control.taken_eof (c := m.control) m.afterComma eof h.backed.mark_ne_eof
  rwa [← control_step] at this

open Reading

/-- With enough steps allowed, the parser either finishes with the token in sight, or takes it in
the last step. -/
theorem settle_reaches {t : Token} {n : Nat} {m : Machine} (enough : m.weight ≤ n) :
    ((m.settle t n).goals = [] ∧ (m.settle t n).taken = m.taken ∧
      ∀ rest, Reaches ⟨m, t, rest⟩ ⟨m.settle t n, t, rest⟩) ∨
    (∃ before : Machine, before.taken = m.taken ∧ (before.step t).taken = m.taken + 1 ∧
      m.settle t n = before.step t ∧ ∀ rest, Reaches ⟨m, t, rest⟩ ⟨before, t, rest⟩) := by
  fun_induction settle t n m with
  | case1 m =>
    have none : m.goals = [] := by
      rcases Decidable.em (m.goals = []) with none | some
      · exact none
      · have := weight_pos some
        omega
    exact .inl ⟨none, rfl, fun _ => .refl⟩
  | case2 n m none => exact .inl ⟨List.isEmpty_iff.mp none, rfl, fun _ => .refl⟩
  | case3 n m some next takes =>
    have takes : next.taken = m.taken + 1 := (m.taken_step t).resolve_left (Nat.ne_of_gt takes)
    exact .inr ⟨m, rfl, takes, rfl, fun _ => .refl⟩
  | case4 n m some next stays ih =>
    have some : m.goals ≠ [] := fun none => some (List.isEmpty_iff.mpr none)
    have stays : next.taken = m.taken := by
      have : next.taken = m.taken ∨ next.taken = m.taken + 1 := m.taken_step t
      omega
    have lighter : next.weight < m.weight := weight_step some stays
    have first (rest : List Lexeme) : Next ⟨m, t, rest⟩ ⟨next, t, rest⟩ := .stay some stays
    obtain ⟨done, same, way⟩ | ⟨before, same, takes, last, way⟩ := ih (by omega)
    · exact .inl ⟨done, same.trans stays, fun rest => .head (first rest) (way rest)⟩
    · exact .inr ⟨before, same.trans stays, by omega, last,
        fun rest => .head (first rest) (way rest)⟩

theorem Steady.of_reaches {r r' : Reading} (h : Reaches r r') (hr : r.machine.Steady) :
    r'.machine.Steady :=
  h.invariant (fun _ t hm => hm.step t) (fun _ l hm => hm.receive l) hr

/-- A run goes through readings until nothing is left to do. -/
theorem run_reaches {m : Machine} {l : Lexeme} {rest : List Lexeme} (steady : m.Steady)
    (ended : Lexeme.Ended (l :: rest)) :
    ∃ t rest', Reaches (Reading.start m l rest) ⟨m.run (l :: rest), t, rest'⟩ ∧
      (m.run (l :: rest)).goals = [] := by
  induction rest generalizing m l with
  | nil =>
    have eof : l.token.kind = .eof := ended
    obtain ⟨done, same, way⟩ | ⟨before, same, takes, last, way⟩ :=
      settle_reaches (t := l.token) (Nat.le_refl (m.receive l).weight)
    · have stop : m.run [l] = m.feed l := by simp [run, feed, same]
      rw [stop]
      exact ⟨_, _, way [], done⟩
    · have stays : (before.step l.token).taken = before.taken :=
        (Steady.of_reaches (way []) (steady.receive l)).taken_eof eof
      omega
  | cons l' rest ih =>
    obtain ⟨done, same, way⟩ | ⟨before, same, takes, last, way⟩ :=
      settle_reaches (t := l.token) (Nat.le_refl (m.receive l).weight)
    · have stop : m.run (l :: l' :: rest) = m.feed l := by simp [run, feed, same]
      rw [stop]
      exact ⟨_, _, way _, done⟩
    · have more : m.run (l :: l' :: rest) = (before.step l.token).run (l' :: rest) := by
        rw [run]
        simp only [feed, last, takes, taken_receive, Nat.lt_add_one, if_true]
      have next : Next ⟨before, l.token, l' :: rest⟩ (.start (before.step l.token) l' rest) :=
        .move (by omega)
      have steady' := Steady.of_reaches (way (l' :: rest)) (steady.receive l)
      obtain ⟨t, rest', way', done⟩ := ih (steady'.step l.token) ended
      rw [more]
      exact ⟨t, rest', (way _).trans (.head next way'), done⟩

end Machine

/-- The lexemes of a text go up to its end. -/
theorem Lexeme.ended_group (leading ts : List Token) : Lexeme.Ended (Lexeme.group leading ts) := by
  fun_induction Lexeme.group leading ts with
  | case1 => rfl
  | case2 _ _ _ _ ih => exact ih
  | case3 leading t rest _ ih =>
    revert ih
    cases Lexeme.group [] rest with
    | nil => exact False.elim
    | cons => exact id

/-- There is a lexeme for every text. -/
theorem lexemes_eq_cons (text : Bytes) :
    ∃ l rest, lexemes text = l :: rest ∧ Lexeme.Ended (l :: rest) := by
  have ended := Lexeme.ended_group [] (Token.all text)
  unfold lexemes
  cases h : Lexeme.group [] (Token.all text) with
  | nil => rw [h] at ended; exact ended.elim
  | cons l rest => exact ⟨l, rest, rfl, h ▸ ended⟩

/-- The parser before a text turns to its first lexeme. -/
def Reading.ofText (m : Machine) (text : Bytes) : Reading :=
  match lexemes text with
  | l :: rest => .start m l rest
  | [] => ⟨m, .eof, []⟩

/-- A run over a text goes through readings until nothing is left to do. -/
theorem Machine.run_ofText {m : Machine} (steady : m.Steady) (text : Bytes) :
    ∃ t rest, Reading.Reaches (.ofText m text) ⟨m.run (lexemes text), t, rest⟩ ∧
      (m.run (lexemes text)).goals = [] := by
  obtain ⟨l, rest, hl, ended⟩ := lexemes_eq_cons text
  unfold Reading.ofText
  rw [hl]
  exact run_reaches steady ended

end AvroIdl
