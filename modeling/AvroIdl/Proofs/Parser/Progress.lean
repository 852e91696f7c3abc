import AvroIdl.Proofs.Parser.Automaton

/-!
# Progress of the parser

With a token in sight the parser takes it or has fewer and fewer things left to do.

* `Control.taken_step`: a step takes the token in sight or none;
* `Control.weight_step`: a step that takes no token makes the goals lighter, so the number of steps
  that `Machine.feed` allows is enough;
* `Control.taken_eof`: the end of the text is never taken.
-/

namespace AvroIdl

namespace Control

/-- A bound on the number of steps before a token is taken or nothing is left to do. -/
def weight (c : Control) : Nat := c.goals.foldr (fun g n => g.weight c.taken + n) 0

@[simp] theorem taken_push (c : Control) (goals : List Goal) : (c.push goals).taken = c.taken := rfl

@[simp] theorem taken_count (c : Control) : c.count.taken = c.taken + 1 := rfl

@[simp] theorem taken_fail (c : Control) : c.fail.taken = c.taken := rfl

@[simp] theorem taken_recover (c : Control) (t : Token) (skipped : Option Skipped) :
    (c.recover t skipped).taken = c.taken := by
  fun_cases recover c t skipped <;> rfl

@[simp] theorem taken_skipOne (c : Control) (skipped : Skipped) (t : Token) :
    (c.skipOne skipped t).taken = c.taken + 1 := by
  fun_cases skipOne c skipped t <;> rfl

theorem taken_work (c : Control) (comma : Bool) (t : Token) (g : Goal) :
    (c.work comma t g).taken = c.taken ∨ (c.work comma t g).taken = c.taken + 1 := by
  cases g <;> simp only [work, group, item, declaration, openBrace, typeBody] <;>
    repeat' (first | split | simp)

theorem taken_unwind (c : Control) (t : Token) (g : Goal) : (c.unwind t g).taken = c.taken := by
  fun_cases unwind c t g <;> simp

/-- A step takes the token in sight or none. -/
theorem taken_step (c : Control) (comma : Bool) (t : Token) :
    (c.step comma t).taken = c.taken ∨ (c.step comma t).taken = c.taken + 1 := by
  fun_cases step c comma t
  · exact .inl rfl
  · exact taken_work ..
  · exact .inl (taken_unwind ..)

/-! ## Goals get lighter -/

@[simp] theorem weight_push (c : Control) (goals : List Goal) :
    (c.push goals).weight = goals.foldr (fun g n => g.weight c.taken + n) 0 + c.weight := by
  simp only [weight, push, List.foldr_append]
  induction goals with
  | nil => simp
  | cons g rest ih => simp only [List.foldr_cons, ih]; omega

@[simp] theorem weight_fail (c : Control) : c.fail.weight = c.weight := rfl

@[simp] theorem weight_blocks (c : Control) (n : Nat) :
    ({ c with blocks := n } : Control).weight = c.weight := rfl

theorem weight_recover (c : Control) (t : Token) (skipped : Option Skipped) :
    (c.recover t skipped).weight < 3 + c.weight := by
  fun_cases recover c t skipped <;> simp [Goal.weight]

theorem weight_item (c : Control) (t : Token) (body : Body) :
    (c.item t body).taken = c.taken → (c.item t body).weight < 30 + c.weight := by
  fun_cases item c t body <;> simp [Goal.weight]

theorem weight_declaration (c : Control) (t : Token) (body : Body) :
    (c.declaration t body).taken = c.taken → (c.declaration t body).weight < 27 + c.weight := by
  have hr := c.weight_recover t (some .statement)
  fun_cases declaration c t body <;> simp [Goal.weight, Machine.messageRest]
  omega

theorem weight_openBrace (c : Control) (t : Token) (rest : List Goal) :
    (c.openBrace t rest).taken = c.taken → (c.openBrace t rest).weight < 3 + c.weight := by
  have hr := c.weight_recover t (some .statement)
  fun_cases openBrace c t rest <;> simp
  omega

theorem weight_group (c : Control) (skipped : Skipped) (closers : List TokenKind) (t : Token) :
    (c.group skipped closers t).taken = c.taken →
      (c.group skipped closers t).weight < 2 + c.weight := by
  fun_cases group c skipped closers t <;> simp [Goal.weight]

theorem weight_typeBody (c : Control) (t : Token) :
    (c.typeBody t).taken = c.taken → (c.typeBody t).weight < 1 + c.weight := by
  fun_cases typeBody c t <;> simp

theorem weight_work (c : Control) (comma : Bool) (t : Token) (g : Goal) :
    (c.work comma t g).taken = c.taken →
      (c.work comma t g).weight < g.weight c.taken + c.weight := by
  cases g with
  | item body => exact c.weight_item t body
  | declaration body => exact c.weight_declaration t body
  | group skipped closers => exact c.weight_group skipped closers t
  | typeBody => exact c.weight_typeBody t
  | enumBody => exact c.weight_openBrace t _
  | block body =>
    simp only [work]
    split
    · exact weight_openBrace { c with blocks := c.blocks + 1 } t _
    · exact c.weight_openBrace t _
  | moreItems body before =>
    simp only [work, Goal.weight]
    split <;> simp [Goal.weight]
  | skip skipped any =>
    cases skipped <;> simp only [work] <;> repeat' (first | split | simp [Goal.weight])
  | _ =>
    simp only [work]
    repeat' (first | split | simp [Goal.weight])

theorem weight_unwind (c : Control) (t : Token) (g : Goal) :
    (c.unwind t g).weight < g.weight c.taken + c.weight := by
  cases g with
  | recover skipped => exact weight_recover { c with ok := true } t skipped
  | moreItems body before =>
    simp only [unwind, Goal.weight]
    split <;> omega
  | _ => simp [unwind, Goal.weight]

/-- A step that takes no token makes the goals lighter. -/
theorem weight_step {c : Control} (comma : Bool) {t : Token} (some : c.goals ≠ [])
    (stays : (c.step comma t).taken = c.taken) : (c.step comma t).weight < c.weight := by
  obtain ⟨goals, ok, taken, blocks⟩ := c
  cases goals with
  | nil => exact absurd rfl some
  | cons g rest =>
    cases ok with
    | true => exact weight_work ⟨rest, true, taken, blocks⟩ comma t g stays
    | false => exact weight_unwind ⟨rest, false, taken, blocks⟩ t g

/-! ## The end of the text -/

theorem taken_eof_work {c : Control} {comma : Bool} {t : Token} {g : Goal} (eof : t.kind = .eof)
    (hg : g ≠ .mark .eof) : (c.work comma t g).taken = c.taken := by
  have word (k : Keyword) : t.is k = false := by simp [Token.is, eof]
  cases g with
  | mark kind =>
    have : ¬ t.kind = kind := by rw [eof]; rintro rfl; exact hg rfl
    simp [work, this]
  | skip skipped any =>
    cases skipped <;> simp [work, atStatementEnd, Token.endsListItem, eof]
  | item body => cases body <;> simp [work, item, Token.beginsDeclaration, Token.beginsType,
      Token.beginsNamedType, eof, word]
  | block body => simp [work, openBrace, eof]
  | _ =>
    simp [work, group, declaration, openBrace, typeBody, Token.isName, Token.beginsType,
      Token.isJsonLiteral, eof, word] <;>
    split <;> simp

/-- The end of the text is never taken. -/
theorem taken_eof {c : Control} (comma : Bool) {t : Token} (eof : t.kind = .eof)
    (hg : Goal.mark .eof ∉ c.goals) : (c.step comma t).taken = c.taken := by
  obtain ⟨goals, ok, taken, blocks⟩ := c
  cases goals with
  | nil => rfl
  | cons g rest =>
    cases ok with
    | true =>
      refine taken_eof_work (c := ⟨rest, true, taken, blocks⟩) eof ?_
      rintro rfl
      exact hg List.mem_cons_self
    | false => exact taken_unwind ⟨rest, false, taken, blocks⟩ t g

end Control

end AvroIdl
