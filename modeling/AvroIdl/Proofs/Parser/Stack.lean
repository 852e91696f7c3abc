import AvroIdl.Proofs.Parser.Progress

/-!
# Stacks of goals

Not every list of goals comes up. Behind a goal that can fail stands a place where the failure is
dealt with, before the next statement begins, and so a word that is not taken by the goal it meets
is taken soon after. `Backed` says this of every goal of a stack, and every step keeps it.

* `Control.Steady`: the stack is backed, and after an error the way to the place where it is dealt
  with holds no statement;
* `Control.steady_step`: every step keeps a steady state steady;
* `Control.suffix_step`: a step touches the first goal only.
-/

namespace AvroIdl

namespace Goal

/-- Whether an error is dealt with before the next statement begins. -/
def guarded : List Goal → Bool
  | [] => false
  | .recover _ :: _ => true
  | .items _ :: _ | .moreItems _ _ :: _ | .item _ :: _ | .leftovers :: _ => false
  | _ :: rest => guarded rest

/-- Whether a word in sight is taken before the next statement begins, where `opening` says whether
the word begins a declaration, and the second argument whether the parser is free of an error that
has not been dealt with. -/
def takesWord (opening : Bool) : Bool → List Goal → Bool
  | _, [] => false
  | _, .items _ :: _ | _, .moreItems _ _ :: _ | _, .item _ :: _ => false
  | false, .leftovers :: _ => false
  | false, .recover none :: rest => takesWord opening true rest
  | false, .recover (some _) :: _ => true
  | false, _ :: rest => takesWord opening false rest
  | true, g :: rest =>
    match g with
    | .leftovers | .skip .listItem _ | .group _ _ | .declaration _ | .block _ | .enumBody
    | .unionItems | .members | .elements => true
    | .skip .statement any => !(opening && any) || takesWord opening true rest
    | .enumSymbols => !opening || takesWord opening true rest
    | .importKind => takesWord opening true rest && takesWord opening false rest
    | .name | .mark _ | .integer | .importPath | .type | .typeBody | .variableList | .variableDecl
    | .params | .exceptions | .json => takesWord opening false rest
    | _ => takesWord opening true rest

/-- Every word is taken before the next statement begins. -/
def Firm (rest : List Goal) : Prop := ∀ opening ok, takesWord opening ok rest = true

/-- What has to stand behind a goal. -/
def BackedBy (rest : List Goal) : Goal → Prop
  | .name | .integer | .importKind | .importPath | .type | .typeBody | .nullable | .variableList
  | .moreVariables | .variableDecl | .initializer | .params | .moreParams | .messageEnd
  | .exceptions | .moreExceptions | .json => Firm rest
  | .annotations | .members | .moreMembers | .elements | .moreElements | .unionItems
  | .unionSeparator => ∀ opening, takesWord opening true rest = true
  | .enumSeparator => takesWord false true rest = true
  | .mark .semi => ∀ opening, takesWord opening false rest = true
  | .mark .closeCurl => guarded rest = true
  | .mark kind => kind ≠ .eof ∧ Firm rest
  | .item _ => guarded rest = false
  | _ => True

/-- A stack in which every goal has behind it what it needs. -/
def Backed : List Goal → Prop
  | [] => True
  | g :: rest => g.BackedBy rest ∧ Backed rest

theorem guarded_of_takesWord {opening : Bool} {goals : List Goal} :
    takesWord opening false goals = true → guarded goals = true := by
  induction goals with
  | nil => simp [takesWord]
  | cons g rest ih =>
    cases g with
    | recover skipped => simp [guarded]
    | items | moreItems | item | leftovers => simp [takesWord]
    | _ => simpa [takesWord, guarded] using ih

theorem Backed.mark_ne_eof {goals : List Goal} (h : Backed goals) : Goal.mark .eof ∉ goals := by
  induction goals with
  | nil => simp
  | cons g rest ih =>
    obtain ⟨hg, hr⟩ := h
    rintro (_ | ⟨_, hm⟩)
    · exact hg.1 rfl
    · exact ih hr hm

end Goal

namespace Control

open Goal (Backed Firm takesWord guarded)

theorem backed_recover {c : Control} (t : Token) (skipped : Option Skipped) (h : Backed c.goals) :
    Backed (c.recover t skipped).goals := by
  fun_cases recover c t skipped <;> simp [push, Backed, Goal.BackedBy, h]

theorem backed_item {c : Control} (t : Token) (body : Body) (h : Backed c.goals) :
    Backed (c.item t body).goals := by
  fun_cases item c t body <;>
    simp [push, count, importRest, Backed, Goal.BackedBy, Firm, takesWord, h]

theorem backed_declaration {c : Control} (t : Token) (body : Body) (h : Backed c.goals) :
    Backed (c.declaration t body).goals := by
  fun_cases declaration c t body
  case case8 => exact backed_recover t _ h
  all_goals
    simp [push, count, Machine.messageRest, Backed, Goal.BackedBy, Firm, takesWord, h]

theorem backed_typeBody {c : Control} (t : Token) (firm : Firm c.goals) (h : Backed c.goals) :
    Backed (c.typeBody t).goals := by
  have hd := firm
  simp only [Firm, Bool.forall_bool] at hd
  fun_cases typeBody c t <;>
    simp [push, count, fail, Backed, Goal.BackedBy, Firm, takesWord, h, hd]
  exact Goal.guarded_of_takesWord (firm false false)

theorem backed_openBrace {c : Control} (t : Token) {rest : List Goal} (h : Backed c.goals)
    (hr : Backed (rest ++ c.goals)) : Backed (c.openBrace t rest).goals := by
  fun_cases openBrace c t rest
  · exact hr
  · exact backed_recover t _ h

theorem backed_skipOne {c : Control} (skipped : Skipped) (t : Token) (h : Backed c.goals) :
    Backed (c.skipOne skipped t).goals := by
  fun_cases skipOne c skipped t <;> simp [push, count, Backed, Goal.BackedBy, h]

theorem backed_group {c : Control} (skipped : Skipped) (closers : List TokenKind) (t : Token)
    (h : Backed c.goals) : Backed (c.group skipped closers t).goals := by
  fun_cases group c skipped closers t <;> simp [push, count, Backed, Goal.BackedBy, h]

theorem backed_work {c : Control} (comma : Bool) (t : Token) {g : Goal} (h : Backed c.goals)
    (hg : g.BackedBy c.goals) : Backed (c.work comma t g).goals := by
  cases g with
  | item body => exact backed_item t body h
  | declaration body => exact backed_declaration t body h
  | group skipped closers => exact backed_group skipped closers t h
  | typeBody => exact backed_typeBody t hg h
  | enumBody =>
    exact backed_openBrace t h (by simp [Backed, Goal.BackedBy, guarded, h])
  | block body =>
    simp only [work]
    split
    all_goals exact backed_openBrace t h (by simp [Backed, Goal.BackedBy, guarded, h])
  | skip skipped any =>
    cases skipped <;> simp only [work] <;> split_ifs <;>
      first | exact backed_skipOne _ t h | exact h
  | json =>
    have hd := hg
    simp only [Goal.BackedBy, Firm, Bool.forall_bool] at hd
    simp only [work]
    split_ifs <;> simp [push, count, fail, Backed, Goal.BackedBy, Firm, takesWord, guarded, h, hd]
    exact Goal.guarded_of_takesWord (hg false false)
  | _ =>
    simp only [Goal.BackedBy, Firm, Bool.forall_bool] at hg
    simp only [work]
    repeat' split
    all_goals simp [push, count, fail, Backed, Goal.BackedBy, Firm, takesWord, guarded, h, hg]

theorem backed_unwind {c : Control} (t : Token) (g : Goal) (h : Backed c.goals) :
    Backed (c.unwind t g).goals := by
  fun_cases unwind c t g
  · exact h
  · exact backed_recover (c := { c with ok := true }) t _ h
  · exact h

@[simp] theorem ok_push (c : Control) (goals : List Goal) : (c.push goals).ok = c.ok := rfl

@[simp] theorem ok_count (c : Control) : c.count.ok = c.ok := rfl

@[simp] theorem ok_fail (c : Control) : c.fail.ok = false := rfl

@[simp] theorem ok_recover (c : Control) (t : Token) (skipped : Option Skipped) :
    (c.recover t skipped).ok = c.ok := by
  fun_cases recover c t skipped <;> rfl

@[simp] theorem ok_skipOne (c : Control) (skipped : Skipped) (t : Token) :
    (c.skipOne skipped t).ok = c.ok := by
  fun_cases skipOne c skipped t <;> rfl

@[simp] theorem ok_group (c : Control) (skipped : Skipped) (closers : List TokenKind) (t : Token) :
    (c.group skipped closers t).ok = c.ok := by
  fun_cases group c skipped closers t <;> rfl

@[simp] theorem ok_item (c : Control) (t : Token) (body : Body) : (c.item t body).ok = c.ok := by
  fun_cases item c t body <;> rfl

@[simp] theorem ok_declaration (c : Control) (t : Token) (body : Body) :
    (c.declaration t body).ok = c.ok := by
  fun_cases declaration c t body <;> simp

@[simp] theorem ok_openBrace (c : Control) (t : Token) (rest : List Goal) :
    (c.openBrace t rest).ok = c.ok := by
  fun_cases openBrace c t rest <;> simp

theorem guarded_of_mark {rest : List Goal} {kind : TokenKind}
    (h : (Goal.mark kind).BackedBy rest) : guarded rest = true := by
  by_cases semi : kind = .semi
  · subst semi
    exact Goal.guarded_of_takesWord (h false)
  · by_cases curl : kind = .closeCurl
    · subst curl
      exact h
    · have firm : Firm rest := by
        revert h
        cases kind <;> simp_all [Goal.BackedBy]
      exact Goal.guarded_of_takesWord (firm false false)

/-- A goal that fails has behind it a place where the failure is dealt with. -/
theorem guarded_work {c : Control} (comma : Bool) (t : Token) {g : Goal} (hc : c.ok = true)
    (hg : g.BackedBy c.goals) :
    (c.work comma t g).ok = false → guarded (c.work comma t g).goals = true := by
  cases g with
  | mark kind =>
    have behind := guarded_of_mark hg
    simp only [work]
    split <;> simp [fail, hc, behind]
  | name | integer | importKind | importPath | type | exceptions | json =>
    have behind := Goal.guarded_of_takesWord (hg false false)
    simp only [work]
    repeat' split
    all_goals simp [fail, hc, behind]
  | typeBody =>
    have behind := Goal.guarded_of_takesWord (hg false false)
    simp only [work, typeBody]
    split_ifs <;> simp [fail, hc, behind]
  | members =>
    simp only [work]
    split_ifs <;> simp [hc, push, guarded]
  | skip skipped any =>
    cases skipped <;> simp only [work] <;> split_ifs <;> simp [hc]
  | block body =>
    simp only [work]
    split <;> simp [hc]
  | _ =>
    simp only [work]
    repeat' split
    all_goals simp [hc]

/-- What the goals of the parser always satisfy. -/
structure Steady (c : Control) : Prop where
  backed : Backed c.goals
  guarded : c.ok = false → guarded c.goals = true

theorem steady_recover {c : Control} (t : Token) (skipped : Option Skipped) (hc : c.ok = true)
    (h : Backed c.goals) : Steady (c.recover t skipped) :=
  ⟨backed_recover t skipped h, by simp [hc]⟩

theorem steady_unwind {c : Control} (t : Token) {g : Goal} (h : Backed c.goals)
    (hg : guarded (g :: c.goals) = true) : Steady (c.unwind t g) := by
  cases g with
  | recover skipped => exact steady_recover (c := { c with ok := true }) t skipped rfl h
  | items | moreItems | item | leftovers => simp [guarded] at hg
  | _ =>
    refine ⟨backed_unwind t _ h, fun _ => ?_⟩
    simpa [unwind, guarded] using hg

/-- Every step keeps a steady state steady. -/
theorem steady_step {c : Control} (comma : Bool) (t : Token) (h : c.Steady) :
    (c.step comma t).Steady := by
  obtain ⟨goals, ok, taken, blocks⟩ := c
  obtain ⟨backed, guard⟩ := h
  cases goals with
  | nil => exact ⟨backed, guard⟩
  | cons g rest =>
    obtain ⟨hg, hr⟩ := backed
    cases ok with
    | true => exact ⟨backed_work (c := ⟨rest, true, taken, blocks⟩) comma t hr hg,
        guarded_work (c := ⟨rest, true, taken, blocks⟩) comma t rfl hg⟩
    | false => exact steady_unwind (c := ⟨rest, false, taken, blocks⟩) t hr (guard rfl)

/-! ## The goals behind -/

theorem suffix_push (c : Control) (goals : List Goal) : c.goals <:+ (c.push goals).goals :=
  List.suffix_append goals c.goals

theorem suffix_recover (c : Control) (t : Token) (skipped : Option Skipped) :
    c.goals <:+ (c.recover t skipped).goals := by
  fun_cases recover c t skipped <;> first | exact suffix_push .. | exact List.suffix_refl _

theorem suffix_openBrace (c : Control) (t : Token) (inside : List Goal) :
    c.goals <:+ (c.openBrace t inside).goals := by
  fun_cases openBrace c t inside
  · exact c.count.suffix_push inside
  · exact c.suffix_recover t _

/-- The goals behind the one that is worked on stay. -/
theorem suffix_work (c : Control) (comma : Bool) (t : Token) (g : Goal) :
    c.goals <:+ (c.work comma t g).goals := by
  cases g with
  | item body =>
    simp only [work]
    fun_cases item c t body <;> exact c.suffix_push _
  | declaration body =>
    simp only [work]
    fun_cases declaration c t body <;>
      first | exact c.suffix_recover t _ | exact c.suffix_push _
  | enumBody => exact c.suffix_openBrace t _
  | block body =>
    simp only [work]
    split_ifs
    · exact suffix_openBrace { c with blocks := c.blocks + 1 } t _
    · exact c.suffix_openBrace t _
  | group skipped closers =>
    simp only [work]
    fun_cases group c skipped closers t <;>
      first | exact List.suffix_refl _ | exact c.suffix_push _
  | skip skipped any =>
    cases skipped <;> simp only [work, skipOne] <;> split_ifs <;> (try split) <;>
      first | exact List.suffix_refl _ | exact c.count.suffix_push _
  | members =>
    simp only [work]
    split_ifs <;>
      first | exact List.suffix_refl _ | exact c.suffix_push _
  | _ =>
    simp only [work, typeBody]
    (try split_ifs) <;>
      first | exact List.suffix_refl _ | exact c.suffix_push _

theorem suffix_unwind (c : Control) (t : Token) (g : Goal) : c.goals <:+ (c.unwind t g).goals := by
  cases g with
  | recover skipped => exact suffix_recover { c with ok := true } t skipped
  | _ => exact List.suffix_refl _

/-- A step takes one goal off the stack, and may put others in its place. -/
theorem suffix_step {c : Control} {g : Goal} {rest : List Goal} (h : c.goals = g :: rest)
    (comma : Bool) (t : Token) : rest <:+ (c.step comma t).goals := by
  obtain ⟨goals, ok, taken, blocks⟩ := c
  obtain rfl : goals = g :: rest := h
  cases ok with
  | true => exact suffix_work ⟨rest, true, taken, blocks⟩ comma t g
  | false => exact suffix_unwind ⟨rest, false, taken, blocks⟩ t g

end Control

end AvroIdl
