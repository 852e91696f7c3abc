import AvroIdl.Proofs.Parser.Replacement

/-!
# Loops of the parser

The bodies of documents, protocols, records and enums are read in loops. A body ends where its
terminator stands, and until then every turn of its loop takes a token.

* `Goal.Unfolds`: what a step can put in the place of a goal;
* `Control.Advances`: whatever a way does before it comes down to a number of goals, it takes the
  token in sight;
* `Control.advances_item`: so does every statement at a token that does not end its body;
* `Control.Ordered`, `Control.Loops`: what holds of the goals of a loop. No loop is ever passed over,
  and none is left because it got nowhere.
-/

namespace AvroIdl

/-- Whether the statements of a body end before a token. -/
def Body.endsAt (body : Body) (t : Token) : Bool :=
  t.kind = .eof || (t.kind = .closeCurl && body ≠ .document)

/-- Whether the symbols of an enum end before a token, where `comma` says whether the newest child is
a comma. -/
def Token.endsSymbols (comma : Bool) (t : Token) : Bool :=
  t.kind = .closeCurl || t.kind = .eof || (t.beginsDeclaration && !comma)

namespace Goal

/-- Whether a goal is part of no loop that reads a body. -/
def isPlain : Goal → Bool
  | .items _ | .moreItems _ _ | .item _ | .leftovers | .leaveBlock | .enumSymbols
  | .block .document => false
  | _ => true

/-- What a step can put in the place of a goal. -/
inductive Unfolds (t : Token) (taken : Nat) : Goal → List Goal → Prop
  | items {body : Body} (more : body.endsAt t = false) :
    Unfolds t taken (.items body) [.item body, .moreItems body taken]
  | moreItems {body : Body} {before : Nat} : Unfolds t taken (.moreItems body before) [.items body]
  | block {body : Body} :
    Unfolds t taken (.block body) [.items body, .leaveBlock, .mark .closeCurl, .recover none]
  | enumBody :
    Unfolds t taken .enumBody [.enumSymbols, .mark .closeCurl, .enumDefault, .recover none]
  | symbol : Unfolds t taken .enumSymbols [.enumSeparator, .enumSymbols]
  | noSymbol : Unfolds t taken .enumSymbols [.enumSymbols]
  | separator : Unfolds t taken .enumSeparator []
  | leftovers : Unfolds t taken .leftovers [.leftovers]
  | plain {g : Goal} {goals : List Goal} (other : g ≠ .enumSeparator)
    (plain : goals.all isPlain = true) : Unfolds t taken g goals

/-- Whether a goal reads statements of a document. -/
def readsDocument : Goal → Bool
  | .items .document | .moreItems .document _ | .item .document => true
  | _ => false

/-- Whether one goal can stand before another. A document is read outside of all braces, and the
symbols of an enum are read before all else. -/
@[mk_iff]
structure Precedes (g h : Goal) : Prop where
  outermost : g.readsDocument = true → h ≠ .leaveBlock
  symbols : h = .enumSymbols → g = .enumSeparator
  last : g ≠ .leftovers

theorem Precedes.of_plain {g h : Goal} (plain : g.isPlain = true) (other : h ≠ .enumSymbols) :
    g.Precedes h := by
  refine ⟨fun reads => ?_, fun same => absurd same other, fun same => ?_⟩
  · cases g <;> simp_all [isPlain, readsDocument]
  · simp [same, isPlain] at plain

theorem Precedes.ne_symbols {g h : Goal} (before : g.Precedes h) (other : g ≠ .enumSeparator) :
    h ≠ .enumSymbols := fun same => other (before.symbols same)

namespace Unfolds

variable {t : Token} {taken : Nat} {g : Goal} {new : List Goal}

/-- What stands in the place of a goal can stand before what that stood before. -/
theorem precedes (h : Unfolds t taken g new) (inner : g ≠ .block .document) :
    new.Pairwise Precedes ∧ ∀ x, g.Precedes x → ∀ a ∈ new, a.Precedes x := by
  cases h with
  | plain other plain =>
    rw [List.all_eq_true] at plain
    refine ⟨List.pairwise_of_forall_mem_list fun a mem b there => ?_, fun x before a mem => ?_⟩
    · refine .of_plain (plain a mem) fun same => ?_
      simpa [same, isPlain] using plain b there
    · exact .of_plain (plain a mem) (before.ne_symbols other)
  | @items body | @moreItems body | @block body =>
    refine ⟨?_, fun x before => ?_⟩
    · cases body <;> first | contradiction | simp [precedes_iff, readsDocument]
    · have other := before.ne_symbols (by simp)
      have outermost := before.outermost
      cases body <;> first | contradiction | simp_all [precedes_iff, readsDocument]
  | enumBody | symbol | noSymbol | separator | leftovers =>
    refine ⟨by simp [precedes_iff, readsDocument], fun x before => ?_⟩
    simp_all [precedes_iff, readsDocument]

theorem block_not_mem (h : Unfolds t taken g new) : .block .document ∉ new := by
  cases h with
  | plain _ plain =>
    intro mem
    simpa [isPlain] using List.all_eq_true.mp plain _ mem
  | _ => simp

theorem of_symbols (h : Unfolds t taken g new) (mem : .enumSymbols ∈ new) :
    new.all isPlain = false ∧ (g = .enumBody ∨ g = .enumSymbols) := by
  cases h with
  | plain _ plain => simpa [isPlain] using List.all_eq_true.mp plain _ mem
  | _ => simp_all [isPlain]

end Unfolds

end Goal

namespace Control

open Goal (Unfolds)

variable {c : Control} {t : Token} {g : Goal} {rest : List Goal}

theorem work_items (c : Control) (comma : Bool) (t : Token) (body : Body) :
    c.work comma t (.items body) =
      if body.endsAt t then c else c.push [.item body, .moreItems body c.taken] := rfl

theorem work_enumSymbols (c : Control) (comma : Bool) (t : Token) :
    c.work comma t .enumSymbols =
      if t.endsSymbols comma then c
      else if t.isName then c.count.push [.enumSeparator, .enumSymbols]
      else c.count.push [.enumSymbols] := rfl

/-! ## What a step can do -/

theorem unfolds_recover (c : Control) (t : Token) (skipped : Option Skipped) :
    ∃ new, (c.recover t skipped).goals = new ++ c.goals ∧ new.all Goal.isPlain = true := by
  fun_cases recover c t skipped <;>
    first | exact ⟨[], rfl, rfl⟩ | exact ⟨_, rfl, rfl⟩

theorem unfolds_work (c : Control) (comma : Bool) (t : Token) (g : Goal) :
    ∃ new, (c.work comma t g).goals = new ++ c.goals ∧ Unfolds t c.taken g new := by
  have nothing (other : g ≠ .enumSeparator) : ∃ new, c.goals = new ++ c.goals ∧
      Unfolds t c.taken g new := ⟨[], rfl, .plain other rfl⟩
  have skips (other : g ≠ .enumSeparator) : ∃ new,
      (c.recover t (some .statement)).goals = new ++ c.goals ∧ Unfolds t c.taken g new := by
    obtain ⟨new, goals, plain⟩ := c.unfolds_recover t (some .statement)
    exact ⟨new, goals, .plain other plain⟩
  cases g with
  | items body =>
    rw [work_items]
    split_ifs with ends
    · exact nothing (by simp)
    · exact ⟨_, rfl, .items (by simpa using ends)⟩
  | moreItems body before =>
    simp only [work]
    split_ifs
    · exact ⟨_, rfl, .moreItems⟩
    · exact nothing (by simp)
  | item body =>
    simp only [work]
    fun_cases item c t body <;> exact ⟨_, rfl, .plain (by simp) rfl⟩
  | leftovers =>
    simp only [work]
    split_ifs
    · exact nothing (by simp)
    · exact ⟨_, rfl, .leftovers⟩
  | declaration body =>
    simp only [work]
    fun_cases declaration c t body <;>
      first | exact skips (by simp) | exact ⟨_, rfl, .plain (by simp) rfl⟩
  | block body =>
    simp only [work, openBrace]
    split_ifs
    · exact ⟨_, rfl, .block⟩
    · exact skips (by simp)
  | enumBody =>
    simp only [work, openBrace]
    split_ifs
    · exact ⟨_, rfl, .enumBody⟩
    · exact skips (by simp)
  | enumSymbols =>
    simp only [work]
    split_ifs
    · exact nothing (by simp)
    · exact ⟨_, rfl, .symbol⟩
    · exact ⟨_, rfl, .noSymbol⟩
  | enumSeparator =>
    simp only [work]
    split_ifs <;> exact ⟨[], rfl, .separator⟩
  | group skipped closers =>
    simp only [work]
    fun_cases group c skipped closers t <;>
      first | exact nothing (by simp) | exact ⟨_, rfl, .plain (by simp) rfl⟩
  | skip skipped any =>
    cases skipped <;> simp only [work, skipOne] <;> split_ifs <;> (try split) <;>
      first | exact nothing (by simp) | exact ⟨_, rfl, .plain (by simp) rfl⟩
  | _ =>
    simp only [work, typeBody]
    (try split_ifs) <;> first | exact nothing (by simp) | exact ⟨_, rfl, .plain (by simp) rfl⟩

/-- A step takes one goal off the stack, and puts in its place what it unfolds to. After an error no
loop begins. -/
theorem unfolds_step (goals : c.goals = g :: rest) (comma : Bool) (t : Token) :
    ∃ new, (c.step comma t).goals = new ++ rest ∧ Unfolds t c.taken g new ∧
      (c.ok = true ∨ new.all Goal.isPlain = true) := by
  obtain ⟨_, ok, taken, blocks⟩ := c
  obtain rfl := goals
  cases ok with
  | true =>
    obtain ⟨new, goals, unfolds⟩ := unfolds_work ⟨rest, true, taken, blocks⟩ comma t g
    exact ⟨new, goals, unfolds, .inl rfl⟩
  | false =>
    cases g with
    | recover skipped =>
      obtain ⟨new, goals, plain⟩ := unfolds_recover ⟨rest, true, taken, blocks⟩ t skipped
      exact ⟨new, goals, .plain (by simp) plain, .inr plain⟩
    | enumSeparator => exact ⟨[], rfl, .separator, .inr rfl⟩
    | _ => exact ⟨[], rfl, .plain (by simp) rfl, .inr rfl⟩

/-! ## Statements take tokens -/

/-- Before there are only `n` goals left, the token `t` in sight is taken. -/
inductive Advances (t : Token) (n : Nat) : Control → Prop
  | intro {c : Control} (inside : n < c.goals.length)
    (next : ∀ comma, (c.step comma t).taken = c.taken → Advances t n (c.step comma t)) :
    Advances t n c

theorem Advances.inside {n : Nat} (h : c.Advances t n) : n < c.goals.length := by
  cases h with
  | intro inside => exact inside

theorem Advances.step {n : Nat} (h : c.Advances t n) {comma : Bool}
    (stays : (c.step comma t).taken = c.taken) : (c.step comma t).Advances t n := by
  cases h with
  | intro _ next => exact next comma stays

section

variable {n taken blocks : Nat} (behind : n ≤ rest.length)

include behind

theorem advances_of_takes (takes : ∀ comma,
    (step ⟨g :: rest, true, taken, blocks⟩ comma t).taken = taken + 1) :
    Advances t n ⟨g :: rest, true, taken, blocks⟩ := by
  refine .intro (Nat.lt_succ_of_le behind) fun comma stays => ?_
  rw [takes comma] at stays
  simp at stays

theorem advances_skip (more : t.kind ≠ .eof) (inner : t.kind = .closeCurl → blocks = 0) :
    Advances t n ⟨.skip .statement false :: rest, true, taken, blocks⟩ := by
  have begins : atStatementEnd ⟨rest, true, taken, blocks⟩ false t = false := by
    by_cases curl : t.kind = .closeCurl <;> simp_all [atStatementEnd]
  refine advances_of_takes behind fun comma => ?_
  simp only [step, work, begins]
  split_ifs <;> simp_all

theorem advances_annotations
    (other : t.kind ≠ .atSign → Advances t n ⟨rest, true, taken, blocks⟩) :
    Advances t n ⟨.annotations :: rest, true, taken, blocks⟩ := by
  by_cases sign : t.kind = .atSign
  · exact advances_of_takes behind fun comma => by simp [step, work, sign]
  · refine .intro (Nat.lt_succ_of_le behind) fun comma _ => ?_
    simpa [step, work, sign] using other sign

theorem advances_type (begins : t.beginsType = true) :
    Advances t n ⟨.type :: rest, true, taken, blocks⟩ := by
  refine .intro (Nat.lt_succ_of_le behind) fun comma _ => ?_
  simp only [step, work, begins, if_true, push]
  refine advances_annotations (by simp; omega) fun other => ?_
  refine advances_of_takes (by simp; omega) fun comma => ?_
  simp only [Token.beginsType, Bool.or_eq_true, decide_eq_true_eq, other, false_or] at begins
  simp only [step, work, typeBody]
  split_ifs <;> simp_all

theorem advances_declaration {body : Body}
    (begins : t.is .protocol = true ∧ body = .document ∨ t.beginsNamedType = true ∨
      body = .protocol ∧ (t.is .void = true ∨ t.beginsType = true)) :
    Advances t n ⟨.declaration body :: rest, true, taken, blocks⟩ := by
  refine .intro (Nat.lt_succ_of_le behind) fun comma stays => ?_
  simp only [step, work, if_true] at stays ⊢
  simp only [Token.beginsNamedType, Bool.or_eq_true] at begins
  revert stays
  fun_cases declaration ⟨rest, true, taken, blocks⟩ t body
  case case7 type =>
    intro _
    exact advances_type (by simp; omega) (by simp_all)
  case case8 => grind
  all_goals simp

theorem advances_field (more : t.kind ≠ .eof) (inner : t.kind ≠ .closeCurl) :
    Advances t n ⟨.type :: .variableList :: .mark .semi :: .recover (some .statement) :: rest, true,
      taken, blocks⟩ := by
  by_cases begins : t.beginsType = true
  · exact advances_type (by simp; omega) begins
  -- The error that is reported here is dealt with behind the field, by skipping the token.
  · have skips : Advances t n ⟨.skip .statement false :: .close :: rest, true, taken, blocks⟩ :=
      advances_skip (Nat.le_succ_of_le behind) more (by simp [inner])
    refine .intro (by simp; omega) fun comma _ => ?_
    simp only [step, work, begins, fail]
    refine .intro (by simp; omega) fun comma _ => ?_
    simp only [step, unwind]
    refine .intro (by simp; omega) fun comma _ => ?_
    simp only [step, unwind]
    refine .intro (by simp; omega) fun comma _ => ?_
    simpa [step, unwind, recover, atStatementEnd, more, inner, push] using skips

/-- A statement at a token that does not end its body takes a token, whatever the token is. -/
theorem advances_item {body : Body} (more : body.endsAt t = false)
    (outermost : body = .document → blocks = 0) :
    Advances t n ⟨.item body :: rest, true, taken, blocks⟩ := by
  obtain ⟨text, inner⟩ : t.kind ≠ .eof ∧ (t.kind = .closeCurl → body = .document) := by
    simpa [Body.endsAt] using more
  refine .intro (Nat.lt_succ_of_le behind) fun comma stays => ?_
  simp only [step, work, if_true] at stays ⊢
  revert stays
  fun_cases item ⟨rest, true, taken, blocks⟩ t body
  case case4 | case7 =>
    intro _
    refine advances_annotations (by simp; omega) fun other => ?_
    refine advances_declaration (by simp; omega) ?_
    simp_all [Token.beginsDeclaration, Token.beginsNamedType]
    grind
  case case5 | case8 =>
    intro _
    exact advances_skip (Nat.le_succ_of_le behind) text fun curl => outermost (inner curl)
  case case9 =>
    intro _
    exact advances_field (Nat.le_succ_of_le behind) text (by simpa using inner)
  all_goals simp

end

/-! ## The goals of a loop -/

/-- What holds of the goals of loops. -/
structure Ordered (c : Control) : Prop where
  pairwise : c.goals.Pairwise Goal.Precedes
  inner : .block .document ∉ c.goals
  symbols : .enumSymbols ∈ c.goals → c.ok = true

theorem ok_step_enum (goals : c.goals = g :: rest) (ok : c.ok = true)
    (enum : g = .enumBody ∨ g = .enumSymbols ∨ g = .enumSeparator) (comma : Bool) (t : Token) :
    (c.step comma t).ok = true := by
  obtain ⟨_, _, taken, blocks⟩ := c
  obtain rfl := goals
  obtain rfl := ok
  rcases enum with rfl | rfl | rfl <;> simp only [step, work] <;> (try split_ifs) <;> simp

theorem Ordered.step (h : c.Ordered) (comma : Bool) (t : Token) : (c.step comma t).Ordered := by
  cases goals : c.goals with
  | nil => simpa [Control.step, goals] using h
  | cons g rest =>
    obtain ⟨new, after, unfolds, ok⟩ := unfolds_step goals comma t
    obtain ⟨pairwise, inner, symbols⟩ := h
    rw [goals] at pairwise inner symbols
    obtain ⟨first, pairwise⟩ := List.pairwise_cons.mp pairwise
    obtain ⟨ahead, behind⟩ := unfolds.precedes fun same => inner (same ▸ List.mem_cons_self)
    refine ⟨?_, ?_, fun mem => ?_⟩
    · rw [after]
      exact List.pairwise_append.mpr
        ⟨ahead, pairwise, fun a mem x there => behind x (first x there) a mem⟩
    · rw [after, List.mem_append, not_or]
      exact ⟨unfolds.block_not_mem, fun mem => inner (.tail _ mem)⟩
    · rw [after, List.mem_append] at mem
      rcases mem with new | old
      · obtain ⟨loop, enum⟩ := unfolds.of_symbols new
        have ok : c.ok = true := ok.resolve_right (by simp [loop])
        exact ok_step_enum goals ok (enum.imp_right .inl) comma t
      · exact ok_step_enum goals (symbols (.tail _ old)) (.inr (.inr ((first _ old).symbols rfl))) comma t

/-- A document is read outside of all braces. -/
theorem Ordered.blocks_eq_zero (h : c.Ordered) (counts : c.Counts) (goals : c.goals = g :: rest)
    (reads : g.readsDocument = true) : c.blocks = 0 := by
  have pairwise := h.pairwise
  rw [goals, List.pairwise_cons] at pairwise
  rw [counts.blocks, goals, List.count_eq_zero, List.mem_cons, not_or]
  exact ⟨fun same => by simp [← same, Goal.readsDocument] at reads,
    fun mem => (pairwise.1 _ mem).outermost reads rfl⟩

/-- A goal of two lists stands in one of them. -/
theorem cons_suffix_append {behind new : List Goal} (h : g :: behind <:+ new ++ rest) :
    (∃ later, g :: later <:+ new ∧ behind = later ++ rest) ∨ g :: behind <:+ rest := by
  induction new with
  | nil => exact .inr h
  | cons a new ih =>
    rcases List.suffix_cons_iff.mp h with same | inside
    · obtain ⟨rfl, rfl⟩ := List.cons.inj same
      exact .inl ⟨new, List.suffix_refl _, rfl⟩
    · refine (ih inside).imp_left ?_
      rintro ⟨later, there, rest⟩
      exact ⟨later, there.trans (List.suffix_cons a new), rest⟩

theorem step_items {body : Body} (goals : c.goals = .items body :: rest) (ok : c.ok = true)
    (more : body.endsAt t = false) (comma : Bool) :
    c.step comma t = ⟨.item body :: .moreItems body c.taken :: rest, true, c.taken, c.blocks⟩ := by
  obtain ⟨_, _, taken, blocks⟩ := c
  obtain rfl := goals
  obtain rfl := ok
  simp [step, work_items, more, push]

/-- The parser begins to wait for the end of a statement where the statement begins. -/
theorem moreItems_step {comma : Bool} {body : Body} {n : Nat} {behind : List Goal}
    (h : .moreItems body n :: behind <:+ (c.step comma t).goals) :
    .moreItems body n :: behind <:+ c.goals ∨
      c.goals = .items body :: behind ∧ c.ok = true ∧ body.endsAt t = false ∧ n = c.taken := by
  cases goals : c.goals with
  | nil => simp [step, goals] at h
  | cons g rest =>
    obtain ⟨new, after, unfolds, ok⟩ := unfolds_step goals comma t
    rw [after] at h
    rcases cons_suffix_append h with ⟨later, inside, rfl⟩ | old
    · have mem : .moreItems body n ∈ new := inside.subset List.mem_cons_self
      cases unfolds with
      | items more =>
        simp [List.suffix_cons_iff] at inside
        obtain ⟨⟨rfl, rfl⟩, rfl⟩ := inside
        exact .inr ⟨rfl, ok.resolve_right (by simp [Goal.isPlain]), more, rfl⟩
      | plain _ plain => simpa [Goal.isPlain] using List.all_eq_true.mp plain _ mem
      | _ => simp at mem
    · exact .inl (old.trans (List.suffix_cons g rest))

/-- Since a statement of a loop began, a token has been taken, or one will be before the statement
ends. -/
def Loops (t : Token) (c : Control) : Prop :=
  ∀ body n behind, .moreItems body n :: behind <:+ c.goals →
    n < c.taken ∨ c.Advances t (behind.length + 1)

theorem Loops.stay (h : c.Loops t) (ordered : c.Ordered) (counts : c.Counts) {comma : Bool}
    (stays : (c.step comma t).taken = c.taken) : (c.step comma t).Loops t := by
  intro body n behind here
  rcases moreItems_step here with old | ⟨goals, ok, more, rfl⟩
  · exact (h body n behind old).imp (fun less => by rwa [stays]) fun advances => advances.step stays
  · right
    rw [step_items goals ok more]
    refine advances_item (by simp) more ?_
    rintro rfl
    exact ordered.blocks_eq_zero counts goals rfl

theorem Loops.move (counts : c.Counts) {comma : Bool}
    (takes : (c.step comma t).taken = c.taken + 1) (t' : Token) : (c.step comma t).Loops t' := by
  intro body n behind here
  left
  rcases moreItems_step here with old | ⟨goals, ok, more, rfl⟩
  · have before := counts.before body n (old.subset List.mem_cons_self)
    omega
  · simp [step_items goals ok more] at takes

/-- No loop is left because it got nowhere. -/
theorem Loops.lt_taken (h : c.Loops t) {body : Body} {n : Nat}
    (goals : c.goals = .moreItems body n :: rest) : n < c.taken := by
  refine (h body n rest (goals ▸ List.suffix_refl _)).resolve_right fun advances => ?_
  have := advances.inside
  simp [goals] at this

/-- The loop that reads the document is below all other goals, until the end of the text is in
sight. -/
def Grounded (t : Token) (c : Control) : Prop :=
  t.kind = .eof ∨ ∃ front g, c.goals = front ++ [g, .leftovers] ∧
    (g = .items .document ∨ ∃ n, g = .moreItems .document n)

theorem Grounded.step (h : c.Grounded t) (steady : c.Steady) (loops : c.Loops t) (comma : Bool) :
    (c.step comma t).Grounded t := by
  refine h.elim .inl ?_
  rintro ⟨front, g, goals, loop⟩
  cases front with
  | cons a front =>
    obtain ⟨new, after, -⟩ := unfolds_step goals comma t
    exact .inr ⟨new ++ front, g, by simp [after], loop⟩
  | nil =>
    have ok : c.ok = true := by
      by_contra failed
      have guard := steady.guarded (by simpa using failed)
      rcases loop with rfl | ⟨n, rfl⟩ <;> simp [goals, Goal.guarded] at guard
    rcases loop with rfl | ⟨n, rfl⟩
    · cases ends : Body.endsAt .document t with
      | true => exact .inl (by simpa [Body.endsAt] using ends)
      | false =>
        rw [step_items goals ok ends]
        exact .inr ⟨[.item .document], _, rfl, .inr ⟨_, rfl⟩⟩
    · have less := loops.lt_taken goals
      right
      refine ⟨[], .items .document, ?_, .inl rfl⟩
      simp [Control.step, goals, ok, work, less, push]

theorem Grounded.eof_of_leftovers (h : c.Grounded t) (ordered : c.Ordered)
    (goals : c.goals = .leftovers :: rest) : t.kind = .eof := by
  refine h.resolve_right ?_
  rintro ⟨front, g, same, loop⟩
  have pairwise := ordered.pairwise
  rw [goals, List.pairwise_cons] at pairwise
  have alone : rest = [] :=
    List.eq_nil_iff_forall_not_mem.mpr fun x mem => (pairwise.1 x mem).last rfl
  have := congrArg List.length (goals.symm.trans same)
  simp [alone] at this

end Control

end AvroIdl
