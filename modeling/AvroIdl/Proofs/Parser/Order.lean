import AvroIdl.Proofs.Parser.Language
import AvroIdl.Proofs.Parser.Stack

/-!
# Goals in order

As long as the parser has met no error, its goals are in order: each of them ends where what the
others read begins, so that looking at the next token is enough. `Control.Tidy` says so.

* `Control.Tidy.step`: a step that makes no error leaves the goals in order;
* `Control.Tidy.reads_step`: the tokens that are left can be read if the next step makes no error,
  and the tokens left after it can be read.
-/

namespace AvroIdl

open Grammar

/-- Goals each of which ends where what is read by the goals after it begins. -/
def Orderly : List Goal → Prop
  | [] => True
  | g :: rest => g.Meets rest ∧ Orderly rest

namespace Orderly

variable {g : Goal} {rest : List Goal} {body : Body}

/-- A goal that takes all that belongs to it can be put before others. -/
theorem cons (h : Orderly rest) (plain : g.plain = true) (head : rest.head? ≠ some .enumSymbols)
    (clash : ∀ t w, Sight t w → g.clash t = true → ¬ Matches (Goal.rulesOf rest) w)
    (absorb : g = .annotations → Absorb (Goal.rulesOf rest)) : Orderly (g :: rest) :=
  ⟨⟨.inl plain, fun {t w} => clash t w, absorb, iff_of_false head (by rintro rfl; contradiction)⟩, h⟩

/-- A goal that never reads more than it must can be put before others. -/
theorem fixed (h : Orderly rest) (plain : g.plain = true) (head : rest.head? ≠ some .enumSymbols)
    (clash : ∀ t, g.clash t = false) (other : g ≠ .annotations) : Orderly (g :: rest) := by
  refine h.cons plain head (fun t w _ clashes => ?_) fun eq => absurd eq other
  rw [clash t] at clashes
  contradiction

theorem head (h : Orderly (g :: rest)) (other : g ≠ .enumSeparator) :
    rest.head? ≠ some .enumSymbols := fun eq => other (h.1.symbols.mp eq)

/-- A goal can be put in the place of another that ends where it ends. -/
theorem instead {g' : Goal} (h : Orderly (g :: rest)) (other : g ≠ .enumSeparator)
    (plain : g'.plain = true) (clash : ∀ t, g'.clash t = true → g.clash t = true)
    (other' : g' ≠ .annotations) : Orderly (g' :: rest) :=
  h.2.cons plain (h.head other) (fun t _ sight clashes => h.1.clash sight (clash t clashes))
    fun eq => absurd eq other'

theorem name (h : Orderly rest) (head : rest.head? ≠ some .enumSymbols) : Orderly (.name :: rest) :=
  h.fixed rfl head (fun _ => rfl) nofun

theorem mark (h : Orderly rest) (kind : TokenKind) (ne : kind ≠ .eof)
    (head : rest.head? ≠ some .enumSymbols) : Orderly (.mark kind :: rest) :=
  h.fixed (by cases kind <;> first | rfl | contradiction) head (fun _ => rfl) nofun

theorem close (h : Orderly rest) (head : rest.head? ≠ some .enumSymbols) :
    Orderly (.close :: rest) := h.fixed rfl head (fun _ => rfl) nofun

theorem recover (h : Orderly rest) (head : rest.head? ≠ some .enumSymbols)
    (skipped : Option Skipped) : Orderly (.recover skipped :: rest) :=
  h.fixed rfl head (fun _ => rfl) nofun

/-- A statement ends in a semicolon. -/
theorem semi (h : Orderly rest) (head : rest.head? ≠ some .enumSymbols) :
    Orderly (.mark .semi :: .recover (some .statement) :: rest) :=
  (h.recover head _).mark .semi nofun nofun

theorem semi_close (h : Orderly rest) (head : rest.head? ≠ some .enumSymbols) :
    Orderly (.mark .semi :: .recover (some .statement) :: .close :: rest) :=
  (h.close head).semi nofun

/-- A goal can be put before others that do not begin with what it clashes with. -/
theorem before (h : Orderly rest) (plain : g.plain = true) (head : rest.head? ≠ some .enumSymbols)
    (first : ∀ t, g.clash t = true → (Rule.sequence (Goal.rulesOf rest)).starts t = false)
    (nullable : (Rule.sequence (Goal.rulesOf rest)).nullable = false) (other : g ≠ .annotations) :
    Orderly (g :: rest) :=
  h.cons plain head (fun t _ sight clash => sight.not_matches (first t clash) nullable)
    fun eq => absurd eq other

theorem type_semi (h : Orderly rest) (head : rest.head? ≠ some .enumSymbols) :
    Orderly (.type :: .mark .semi :: .recover (some .statement) :: .close :: rest) := by
  refine (h.semi_close head).before rfl nofun (fun t clash => ?_) rfl nofun
  simp_all [Goal.clash, Goal.rules, Rule.sequence, Rule.starts, Rule.mark, Rule.nullable]

/-- Annotations are read before a declaration, even if it is a message whose type begins with more
of them. -/
theorem absorb_declaration (body : Body) (rules : List Rule) :
    Absorb ((Goal.declaration body).rules ++ rules) := by
  intro t w is h
  have other {n : Nonterminal} (starts : n.starts t = false) (part : n ≠ .document)
      (rules : List Rule) : ¬ Matches (.part n :: rules) (t :: w) := by
    refine (Sight.more (by simp [is])).not_matches ?_ ?_
    · simp [Rule.sequence, Rule.starts, Rule.nullable, starts, part]
    · simp [Rule.sequence, Rule.nullable, part]
  have word (k : Keyword) : t.is k = false := Token.is_eq_false (by simp [is])
  have noRecord := other (n := .record) (by simp [Nonterminal.starts, word]) (by simp)
  have noEnum := other (n := .enum) (by simp [Nonterminal.starts, word]) (by simp)
  have noFixed := other (n := .fixed) (by simp [Nonterminal.starts, word]) (by simp)
  cases body with
  | document =>
    have noProtocol := other (n := .protocol) (by simp [Nonterminal.starts, word]) (by simp)
    simp [Goal.rules, noRecord, noEnum, noFixed, noProtocol] at h
  | record => simp [Goal.rules, noRecord, noEnum, noFixed] at h
  | protocol =>
    have message : Matches (.part .message :: rules) (t :: w) := by
      simpa [Goal.rules, noRecord, noEnum, noFixed] using h
    -- The type of the message has the annotation.
    have ofType (v : List Token) : Matches (.annotations :: .typeBody :: .opt (.mark .question) ::
        .name :: .mark .openParen :: .closedList .parameter :: .mark .closeParen :: .messageEnd ::
        .mark .semi :: rules) v → Matches (.part .message :: rules) v := by
      intro typed
      simp only [matches_part (n := .message), Nonterminal.rule, matches_sequence,
        List.cons_append, List.nil_append, matches_alt]
      exact .inl (by simpa [matches_part, Nonterminal.rule] using typed)
    simp only [matches_part (n := .message), matches_part (n := .type), Nonterminal.rule,
      matches_sequence, List.cons_append, List.nil_append, matches_alt, Rule.keyword,
      matches_token_cons, word, Bool.false_eq_true, false_and, or_false, matches_annotations] at message
    have noType : ¬ Matches (.typeBody :: .opt (.mark .question) :: .name :: .mark .openParen ::
        .closedList .parameter :: .mark .closeParen :: .messageEnd :: .mark .semi :: rules)
        (t :: w) := by
      refine (Sight.more (by simp [is])).not_matches ?_ rfl
      simp [Rule.sequence, Rule.starts, Rule.typeBody, Rule.oneOf, Rule.mark, Rule.keyword,
        Rule.nullable, word, is]
    refine (message.resolve_left noType).imp fun v typed => ?_
    have := ofType v typed
    simp [Goal.rules, this]

/-- Annotations are read before what does not begin with one. -/
theorem annotated (h : Orderly rest) (head : rest.head? ≠ some .enumSymbols)
    (first : ∀ t, t.kind = .atSign → (Rule.sequence (Goal.rulesOf rest)).starts t = false)
    (nullable : (Rule.sequence (Goal.rulesOf rest)).nullable = false) :
    Orderly (.annotations :: rest) := by
  refine h.cons rfl head (fun _ _ _ clash => ?_) fun _ t w is hw => ?_
  · simp [Goal.clash] at clash
  · exact absurd hw ((Sight.more (by simp [is])).not_matches (first t is) nullable)

theorem items (h : Orderly (.items body :: rest)) (taken : Nat) :
    Orderly (.item body :: .moreItems body taken :: rest) := by
  have head := h.head nofun
  have more : Orderly (.moreItems body taken :: rest) :=
    h.instead nofun rfl (fun _ clash => clash) nofun
  refine more.cons rfl nofun (fun t w sight clash => ?_) nofun
  have eq : t.kind = .eq := by simpa [Goal.clash] using clash
  simp only [Goal.rulesOf_cons, Goal.rules, List.cons_append, List.nil_append, matches_star]
  rintro (hw | hw)
  · exact h.1.clash sight (by simp [Goal.clash, eq]) hw
  · refine sight.not_matches ?_ ?_ hw
    · cases body <;>
        simp [Rule.sequence, Rule.starts, Body.rule, Nonterminal.starts, Rule.nullable, Token.is,
          Token.beginsDeclaration, Token.beginsType, Token.beginsNamedType, eq]
    · cases body <;> rfl

theorem declaration (h : Orderly (.item body :: rest)) :
    Orderly (.annotations :: .declaration body :: .close :: rest) := by
  have head := h.head nofun
  have close : Orderly (.close :: rest) := h.2.close head
  have decl : Orderly (.declaration body :: .close :: rest) :=
    close.cons rfl nofun (fun t w sight clash => h.1.clash sight clash) nofun
  refine decl.cons rfl nofun (fun _ _ _ clash => ?_) fun _ => absorb_declaration body _
  simp [Goal.clash] at clash

theorem field (h : Orderly rest) (head : rest.head? ≠ some .enumSymbols) :
    Orderly (.type :: .variableList :: .mark .semi :: .recover (some .statement) :: .close ::
      rest) := by
  have list : Orderly (.variableList :: .mark .semi :: .recover (some .statement) :: .close :: rest) := by
    refine (h.semi_close head).before rfl (by simp) (fun t clash => ?_) rfl (by simp)
    simp only [Goal.clash, Bool.or_eq_true, decide_eq_true_eq] at clash
    rcases clash with h | h <;>
      simp [Goal.rules, Rule.sequence, Rule.starts, Rule.mark, Rule.nullable, h]
  refine list.before rfl (by simp) (fun t clash => ?_) rfl (by simp)
  simp_all [Goal.clash, Goal.rules, Rule.sequence, Rule.starts, Rule.list, Rule.nullable, Nonterminal.starts, Token.isName]

theorem message (h : Orderly rest) (head : rest.head? ≠ some .enumSymbols) :
    Orderly (Machine.messageRest ++ rest) := by
  have last : Orderly (.messageEnd :: .mark .semi :: .recover (some .statement) :: rest) := by
    refine (h.semi head).before rfl (by simp) (fun t clash => ?_) rfl (by simp)
    simp only [Goal.clash, Bool.or_eq_true, decide_eq_true_eq] at clash
    have kind : t.kind = .keyword ∨ t.kind = .comma := by
      rcases clash with (h | h) | h
      · exact .inl (Token.kind_of_is h)
      · exact .inl (Token.kind_of_is h)
      · exact .inr h
    rcases kind with h | h <;>
      simp [Goal.rules, Rule.sequence, Rule.starts, Rule.mark, Rule.nullable, h]
  have params : Orderly (.params :: .mark .closeParen :: .messageEnd :: .mark .semi ::
      .recover (some .statement) :: rest) := by
    refine (last.mark .closeParen (by simp) (by simp)).before rfl (by simp) (fun t clash => ?_) rfl
      (by simp)
    simp_all [Goal.clash, Goal.rules, Rule.sequence, Rule.starts, Rule.mark, Rule.nullable]
  exact (params.mark .openParen (by simp) (by simp)).name (by simp)

theorem typed_message (h : Orderly rest) (head : rest.head? ≠ some .enumSymbols) :
    Orderly (.type :: Machine.messageRest ++ rest) := by
  refine (h.message head).before rfl nofun (fun t clash => ?_) rfl nofun
  simp_all [Goal.clash, Machine.messageRest, Goal.rules, Rule.sequence, Rule.starts, Rule.name,
    Rule.nullable]

theorem block (h : Orderly rest) (head : rest.head? ≠ some .enumSymbols) (inner : body ≠ .document) :
    Orderly (.items body :: .leaveBlock :: .mark .closeCurl :: .recover none :: rest) := by
  have last := (h.recover head none).mark .closeCurl nofun nofun
  refine (last.fixed (g := .leaveBlock) rfl nofun (fun _ => rfl) nofun).before rfl nofun
    (fun t clash => ?_) rfl nofun
  simp_all [Goal.clash, Goal.rules, Rule.sequence, Rule.starts, Rule.mark, Rule.nullable]

theorem enumBody (h : Orderly (.enumBody :: rest)) :
    Orderly (.enumSymbols :: .mark .closeCurl :: .enumDefault :: .recover none :: rest) := by
  have head := h.head nofun
  have last : Orderly (.enumDefault :: .recover none :: rest) :=
    (h.2.recover head none).cons rfl nofun (fun t w sight clash => h.1.clash sight clash) nofun
  refine (last.mark .closeCurl nofun nofun).before rfl nofun (fun t clash => ?_) rfl nofun
  simp_all [Goal.clash, Goal.rules, Rule.sequence, Rule.starts, Rule.mark, Rule.nullable]

theorem enumSymbols (h : Orderly (.enumSymbols :: rest)) :
    Orderly (.enumSeparator :: .enumSymbols :: rest) :=
  ⟨⟨.inr rfl, fun sight clash => h.1.clash sight clash, nofun, iff_of_true rfl rfl⟩, h⟩

theorem type (h : Orderly (.type :: rest)) :
    Orderly (.annotations :: .typeBody :: .close :: .nullable :: rest) := by
  have head := h.head nofun
  have last : Orderly (.nullable :: rest) :=
    h.instead nofun rfl (fun _ clash => clash) nofun
  have body : Orderly (.typeBody :: .close :: .nullable :: rest) :=
    (last.close nofun).fixed rfl nofun (fun _ => rfl) nofun
  refine body.annotated nofun (fun t is => ?_) rfl
  simp [Goal.rules, Rule.sequence, Rule.starts, Rule.typeBody, Rule.oneOf, Rule.mark, Rule.keyword,
    Rule.nullable, Token.is, is]

theorem bracketed (h : Orderly rest) (head : rest.head? ≠ some .enumSymbols) :
    Orderly (.mark .lt :: .type :: .mark .gt :: rest) := by
  have inner : Orderly (.type :: .mark .gt :: rest) := by
    refine (h.mark .gt (by simp) head).before rfl (by simp) (fun t clash => ?_) rfl (by simp)
    simp_all [Goal.clash, Goal.rules, Rule.sequence, Rule.starts, Rule.mark, Rule.nullable]
  exact inner.mark .lt (by simp) (by simp)

theorem union (h : Orderly rest) (head : rest.head? ≠ some .enumSymbols) :
    Orderly (.mark .openCurl :: .unionItems :: .mark .closeCurl :: rest) := by
  have inner : Orderly (.unionItems :: .mark .closeCurl :: rest) := by
    refine (h.mark .closeCurl (by simp) head).before rfl (by simp) (fun t clash => ?_) rfl (by simp)
    simp_all [Goal.clash, Goal.rules, Rule.sequence, Rule.starts, Rule.mark, Rule.nullable]
  exact inner.mark .openCurl (by simp) (by simp)

theorem unionItems (h : Orderly (.unionItems :: rest)) :
    Orderly (.type :: .recover (some .listItem) :: .unionSeparator :: rest) := by
  have head := h.head nofun
  have last : Orderly (.unionSeparator :: rest) :=
    h.instead nofun rfl (fun _ clash => clash) nofun
  refine (last.recover nofun _).cons rfl nofun (fun t w sight clash => ?_) nofun
  have question : t.kind = .question := by simpa [Goal.clash] using clash
  simp only [Goal.rulesOf_cons, Goal.rules, List.cons_append, List.nil_append, matches_restOf]
  rintro (hw | hw)
  · exact h.1.clash sight (by simp [Goal.clash, question]) hw
  · refine sight.not_matches ?_ rfl hw
    simp [Rule.sequence, Rule.starts, Rule.mark, Rule.nullable, question]

theorem variableList (h : Orderly (.variableList :: rest)) :
    Orderly (.variableDecl :: .moreVariables :: rest) := by
  have head := h.head nofun
  have last : Orderly (.moreVariables :: rest) :=
    h.instead nofun rfl (fun _ clash => clash) nofun
  refine last.cons rfl nofun (fun t w sight clash => ?_) nofun
  have eq : t.kind = .eq := by simpa [Goal.clash] using clash
  simp only [Goal.rulesOf_cons, Goal.rules, List.cons_append, List.nil_append, matches_moreOf]
  rintro (hw | hw)
  · exact h.1.clash sight (by simp [Goal.clash, eq]) hw
  · refine sight.not_matches ?_ rfl hw
    simp [Rule.sequence, Rule.starts, Rule.mark, Rule.nullable, eq]

theorem variableDecl (h : Orderly (.variableDecl :: rest)) :
    Orderly (.annotations :: .name :: .initializer :: .close :: rest) := by
  have head := h.head nofun
  have last : Orderly (.initializer :: .close :: rest) :=
    (h.2.close head).cons rfl nofun (fun t w sight clash => h.1.clash sight clash) nofun
  refine (last.name nofun).annotated nofun (fun t is => ?_) rfl
  simp [Goal.rules, Rule.sequence, Rule.starts, Rule.name, Rule.nullable, is]

theorem params (h : Orderly (.params :: rest)) :
    Orderly (.type :: .variableDecl :: .close :: .moreParams :: rest) := by
  have head := h.head (by simp)
  have last : Orderly (.moreParams :: rest) :=
    h.instead (by simp) rfl (fun _ clash => clash) (by simp)
  have variable_ : Orderly (.variableDecl :: .close :: .moreParams :: rest) := by
    refine (last.close (by simp)).cons rfl (by simp) (fun t w sight clash => ?_) (by simp)
    have eq : t.kind = .eq := by simpa [Goal.clash] using clash
    simp only [Goal.rulesOf_cons, Goal.rules, List.cons_append, List.nil_append, matches_restOf]
    rintro (hw | hw)
    · exact h.1.clash sight (by simp [Goal.clash, eq]) hw
    · refine sight.not_matches ?_ rfl hw
      simp [Rule.sequence, Rule.starts, Rule.mark, Rule.nullable, eq]
  refine variable_.before rfl (by simp) (fun t clash => ?_) rfl (by simp)
  simp_all [Goal.clash, Goal.rules, Rule.sequence, Rule.starts, Rule.nullable, Nonterminal.starts,
    Token.isName]

end Orderly

namespace Control

variable {c : Control} {comma : Bool} {t : Token} {g : Goal}

theorem orderly_json (h : Orderly (.json :: c.goals)) : Orderly (c.work comma t .json).goals := by
  have head := h.head (by simp)
  have close := h.2.close head
  simp only [work]
  split_ifs
  · refine (close.mark .closeCurl (by simp) (by simp)).before (g := .members) rfl (by simp)
      (fun t clash => ?_) rfl (by simp)
    simp_all [Goal.clash, Goal.rules, Rule.sequence, Rule.starts, Rule.mark, Rule.nullable]
  · refine (close.mark .closeSquare (by simp) (by simp)).before (g := .elements) rfl (by simp)
      (fun t clash => ?_) rfl (by simp)
    simp_all [Goal.clash, Goal.rules, Rule.sequence, Rule.starts, Rule.mark, Rule.nullable]
  · exact h.2
  · exact h.2

theorem orderly_item {body : Body} (h : Orderly (.item body :: c.goals))
    (quiet : ∀ a ∈ c.workActions comma t (.item body), a.loud = false) :
    Orderly (c.work comma t (.item body)).goals := by
  have head := h.head nofun
  have semi := h.2.semi_close head
  have importing : Orderly (importRest ++ c.goals) :=
    (semi.fixed (g := .importPath) rfl nofun (fun _ => rfl) nofun).fixed (g := .importKind) rfl
      nofun (fun _ => rfl) nofun
  cases body with
  | document =>
    simp only [workActions, Action.item] at quiet
    simp only [work, item]
    split_ifs at quiet ⊢
    · exact importing
    · exact semi.name nofun
    · exact h.2.type_semi head
    · exact h.declaration
    · simp [Action.loud] at quiet
  | protocol =>
    simp only [workActions, Action.item] at quiet
    simp only [work, item]
    split_ifs at quiet ⊢
    · exact importing
    · exact h.declaration
    · simp [Action.loud] at quiet
  | record => exact h.2.field head

theorem orderly_declaration {body : Body} {after : Control} {actions : List Action}
    (declares : c.Declares t body after actions) (h : Orderly (.declaration body :: c.goals))
    (quiet : ∀ a ∈ actions, a.loud = false) : Orderly after.goals := by
  have head := h.head (by simp)
  have named (body : Body) (inner : body ≠ .document) :
      Orderly (.name :: .recover none :: .block body :: c.goals) :=
    ((h.2.fixed (g := .block body) (by cases body <;> first | rfl | contradiction) head
      (fun _ => rfl) (by simp)).recover (by simp) none).name (by simp)
  cases declares with
  | protocol => exact named .protocol (by simp)
  | record | error => exact named .record (by simp)
  | enum =>
    have body : Orderly (.enumBody :: c.goals) :=
      h.instead (by simp) rfl (fun _ clash => clash) (by simp)
    exact (body.recover (by simp) none).name (by simp)
  | fixed =>
    have last := ((h.2.semi head).mark .closeParen (by simp) (by simp)).fixed (g := .integer) rfl
      (by simp) (fun _ => rfl) (by simp)
    exact ((last.mark .openParen (by simp) (by simp)).recover (by simp) none).name (by simp)
  | void => exact h.2.message head
  | message => exact h.2.typed_message head
  | dangling => simp [Action.report, Action.loud] at quiet

theorem orderly_typeBody (h : Orderly (.typeBody :: c.goals)) :
    Orderly (c.work comma t .typeBody).goals := by
  have head := h.head (by simp)
  simp only [work, typeBody]
  split_ifs
  · exact h.2.bracketed head
  · exact h.2.bracketed head
  · exact h.2.union head
  · have integer (rest : List Goal) (h : Orderly rest) (head : rest.head? ≠ some .enumSymbols) :
        Orderly (.integer :: rest) := h.fixed rfl head (fun _ => rfl) (by simp)
    have second := integer _ (h.2.mark .closeParen (by simp) head) (by simp)
    exact (integer _ (second.mark .comma (by simp) (by simp)) (by simp)).mark .openParen (by simp)
      (by simp)
  · exact h.2
  · exact h.2

/-- Goals stay in order as long as there are no errors. -/
theorem orderly_work (h : Orderly (g :: c.goals))
    (quiet : ∀ a ∈ c.workActions comma t g, a.loud = false) : Orderly (c.work comma t g).goals := by
  cases g with
  | item body => exact orderly_item h quiet
  | declaration body => exact orderly_declaration (c.declares t body) h quiet
  | json => exact orderly_json h
  | typeBody => exact orderly_typeBody h
  | skip | group => exact absurd h.1.plain (by simp [Goal.plain])
  | close | leaveBlock | recover => exact h.2
  | items body =>
    simp only [work]
    split_ifs
    · exact h.2
    · exact h.items _
  | moreItems body taken =>
    simp only [work]
    split_ifs
    · exact h.instead (by simp) rfl (fun _ clash => clash) (by simp)
    · exact h.2
  | leftovers =>
    simp only [workActions] at quiet
    simp only [work]
    split_ifs at quiet ⊢
    · exact h.2
    · simp [Action.loud] at quiet
  | name | mark | integer | importPath | enumSeparator | nullable =>
    simp only [work]
    split_ifs <;> exact h.2
  | importKind =>
    simp only [work]
    split_ifs <;> exact h.2
  | annotations =>
    simp only [work]
    split_ifs
    · have last := (h.close (by simp)).recover (by simp) none
      exact (((last.mark .closeParen (by simp) (by simp)).fixed (g := .json) rfl (by simp)
        (fun _ => rfl) (by simp)).mark .openParen (by simp) (by simp)).name (by simp)
    · exact h.2
  | block body =>
    simp only [workActions, openBraceActions] at quiet
    simp only [work, openBrace]
    split_ifs at quiet ⊢
    · refine h.2.block (h.head (by simp)) ?_
      rintro rfl
      exact absurd h.1.plain (by simp [Goal.plain])
    · simp [Action.expected, Action.report, Action.loud] at quiet
  | enumBody =>
    simp only [workActions, openBraceActions] at quiet
    simp only [work, openBrace]
    split_ifs at quiet ⊢
    · exact h.enumBody
    · simp [Action.expected, Action.report, Action.loud] at quiet
  | enumSymbols =>
    simp only [workActions, Action.enumSymbols] at quiet
    simp only [work]
    split_ifs at quiet ⊢
    · exact h.2
    · exact h.enumSymbols
    · simp [Action.loud] at quiet
  | enumDefault =>
    simp only [work]
    split_ifs
    · exact (h.2.semi_close (h.head (by simp))).name (by simp)
    · exact h.2
  | type =>
    simp only [work]
    split_ifs
    · exact h.type
    · exact h.2
  | unionItems =>
    simp only [work]
    split_ifs
    · exact h.2
    · exact h.unionItems
  | variableList => exact h.variableList
  | variableDecl => exact h.variableDecl
  | params =>
    simp only [work]
    split_ifs
    · exact h.2
    · exact h.params
  | initializer =>
    simp only [work]
    split_ifs
    · exact h.2.fixed rfl (h.head (by simp)) (fun _ => rfl) (by simp)
    · exact h.2
  | messageEnd =>
    simp only [work]
    split_ifs
    · exact h.2
    · refine (h.2.close (h.head (by simp))).cons rfl (by simp) (fun t w sight clash => ?_) (by simp)
      have comma : t.kind = .comma := by simpa [Goal.clash] using clash
      exact h.1.clash sight (by simp [Goal.clash, comma])
    · exact h.2
  | unionSeparator | moreVariables | moreParams | exceptions | moreExceptions | moreMembers
  | moreElements =>
    simp only [work]
    split_ifs
    · exact h.instead (by simp) rfl (fun _ clash => clash) (by simp)
    · exact h.2
  | members =>
    simp only [workActions] at quiet
    simp only [work]
    split_ifs at quiet ⊢
    · exact h.2
    · have last : Orderly (.moreMembers :: c.goals) :=
        h.instead (by simp) rfl (fun _ clash => clash) (by simp)
      have value := ((last.recover (by simp) (some .listItem)).close (by simp)).fixed (g := .json)
        rfl (by simp) (fun _ => rfl) (by simp)
      exact value.mark .colon (by simp) (by simp)
    · simp [Action.expected, Action.report, Action.loud] at quiet
  | elements =>
    simp only [work]
    split_ifs
    · exact h.2
    · have last : Orderly (.moreElements :: c.goals) :=
        h.instead (by simp) rfl (fun _ clash => clash) (by simp)
      exact (last.recover (by simp) _).fixed rfl (by simp) (fun _ => rfl) (by simp)

end Control

/-! ## Statements take tokens -/

/-- Whether a goal takes a token in any case. -/
def Goal.required (g : Goal) : Bool := !(Rule.sequence g.rules).nullable

/-- Where more statements can follow, a token has been taken since the last one began, or one of the
goals before takes one, as `held` says of the goals before the list. -/
def Counted (taken : Nat) : Bool → List Goal → Prop
  | _, [] => True
  | held, .moreItems _ n :: rest => n ≤ taken ∧ (n < taken ∨ held = true) ∧ Counted taken held rest
  | held, g :: rest => Counted taken (held || g.required) rest

namespace Counted

variable {taken : Nat} {goals : List Goal}

theorem held {held : Bool} (h : Counted taken held goals) : Counted taken true goals := by
  fun_induction Counted taken held goals with
  | case1 => trivial
  | case2 held body n rest ih => exact ⟨h.1, .inr rfl, ih h.2.2⟩
  | case3 held g rest other ih =>
    have := ih h
    cases g <;> first | exact this | exact absurd rfl (other _ _)

theorem next {held : Bool} (h : Counted taken held goals) (held' : Bool) :
    Counted (taken + 1) held' goals := by
  fun_induction Counted taken held goals generalizing held' with
  | case1 => trivial
  | case2 held body n rest ih => exact ⟨by omega, .inl (by omega), ih h.2.2 held'⟩
  | case3 held g rest other ih =>
    have := ih h (held' || g.required)
    cases g <;> first | exact this | exact absurd rfl (other _ _)

end Counted

namespace Control

variable {c : Control} {comma : Bool} {t : Token} {g : Goal}

theorem counted_declaration {body : Body} {after : Control} {actions : List Action} {held : Bool}
    (declares : c.Declares t body after actions) (below : Counted c.taken held c.goals)
    (quiet : ∀ a ∈ actions, a.loud = false) : Counted after.taken false after.goals := by
  cases declares with
  | message => exact below.held
  | dangling => simp [Action.report, Action.loud] at quiet
  | _ => exact below.next _

/-- Statements take tokens as long as there are no errors. -/
theorem counted_work (h : Counted c.taken false (g :: c.goals)) (meets : g.Meets c.goals)
    (quiet : ∀ a ∈ c.workActions comma t g, a.loud = false) :
    Counted (c.work comma t g).taken false (c.work comma t g).goals := by
  have below : ∃ held, Counted c.taken held c.goals := by
    cases g <;> first | exact ⟨_, h⟩ | exact ⟨_, h.2.2⟩
  obtain ⟨held, below⟩ := below
  have kept : Counted c.taken true c.goals := below.held
  have next : ∀ held, Counted (c.taken + 1) held c.goals := below.next
  cases g with
  | items body =>
    have required : (Goal.item body).required = true := by cases body <;> rfl
    simp only [work]
    split_ifs
    · exact h
    · exact ⟨Nat.le_refl _, .inr (by rw [required]; rfl), by rw [required]; exact kept⟩
  | moreItems body n =>
    simp only [work]
    split_ifs
    · exact h.2.2
    · exact h.2.2
  | item body =>
    simp only [workActions] at quiet
    cases body with
    | record => exact kept
    | document =>
      simp only [Action.item] at quiet
      simp only [work, item]
      split_ifs at quiet ⊢ <;> first | exact next _ | exact kept | simp [Action.loud] at quiet
    | protocol =>
      simp only [Action.item] at quiet
      simp only [work, item]
      split_ifs at quiet ⊢ <;> first | exact next _ | exact kept | simp [Action.loud] at quiet
  | skip | group => exact absurd meets.plain (by simp [Goal.plain])
  | declaration body => exact counted_declaration (c.declares t body) below quiet
  | block | enumBody =>
    simp only [workActions, openBraceActions] at quiet
    simp only [work, openBrace]
    split_ifs at quiet ⊢
    · exact next _
    · simp [Action.expected, Action.report, Action.loud] at quiet
  | typeBody =>
    simp only [workActions, Action.typeBody] at quiet
    simp only [work, typeBody]
    split_ifs at quiet ⊢ <;> first | exact next _ | simp [Action.loud] at quiet
  | importKind =>
    simp only [workActions] at quiet
    simp only [work]
    split_ifs at quiet ⊢ <;>
      first | exact next _ | simp [Action.expected, Action.report, Action.loud] at quiet
  | close | leaveBlock | recover => exact h
  | variableList | variableDecl => exact kept
  | _ =>
    simp only [workActions, Action.mark, Action.enumSymbols, Action.json, Action.separator] at quiet
    simp only [work]
    split_ifs at quiet ⊢ <;>
      first
        | exact next _
        | exact h
        | exact kept
        | simp [Action.expected, Action.report, Action.loud] at quiet

/-- The parser gives up only with an error. -/
theorem ok_of_quiet (meets : g.Meets c.goals)
    (quiet : ∀ a ∈ c.workActions comma t g, a.loud = false) : (c.work comma t g).ok = c.ok := by
  cases g with
  | skip | group => exact absurd meets.plain (by simp [Goal.plain])
  | item body => exact c.ok_item t body
  | close | recover | leaveBlock => rfl
  | declaration body => exact c.ok_declaration t body
  | enumBody => exact c.ok_openBrace t _
  | block body =>
    simp only [work, ok_openBrace]
    split_ifs <;> rfl
  | typeBody =>
    simp only [workActions, Action.typeBody] at quiet
    simp only [work, typeBody]
    split_ifs at quiet ⊢ <;> first | rfl | simp [Action.loud] at quiet
  | _ =>
    simp only [workActions, Action.mark, Action.enumSymbols, Action.json, Action.separator] at quiet
    simp only [work]
    (try split_ifs at quiet ⊢) <;>
      first | rfl | simp [Action.expected, Action.report, Action.loud] at quiet

/-- The state of the automaton as long as there have been no errors. -/
structure Tidy (c : Control) : Prop where
  ok : c.ok = true
  orderly : Orderly c.goals
  counted : Counted c.taken false c.goals

theorem Tidy.step (h : c.Tidy) (quiet : ∀ a ∈ c.actions comma t, a.loud = false) :
    (c.step comma t).Tidy := by
  obtain ⟨goals, ok, taken, blocks⟩ := c
  obtain ⟨rfl, orderly, counted⟩ := h
  cases goals with
  | nil => exact ⟨rfl, orderly, counted⟩
  | cons g rest =>
    exact ⟨ok_of_quiet (c := ⟨rest, true, taken, blocks⟩) orderly.1 quiet,
      orderly_work (c := ⟨rest, true, taken, blocks⟩) orderly quiet,
      counted_work (c := ⟨rest, true, taken, blocks⟩) counted orderly.1 quiet⟩

/-- The tokens that are left can be read if the next step makes no error and the tokens left after
it can be read. -/
theorem Tidy.reads_step (h : c.Tidy) (some : c.goals ≠ []) {w : List Token} (sight : Sight t w)
    {comma' : Bool} (flag : c.actions comma t = [.take t] → comma' = decide (t.kind = .comma)) :
    Reads comma c.goals w ↔ (∀ a ∈ c.actions comma t, a.loud = false) ∧
      Reads comma' (c.step comma t).goals (w.drop ((c.step comma t).taken - c.taken)) := by
  obtain ⟨goals, ok, taken, blocks⟩ := c
  obtain ⟨rfl, orderly, counted⟩ := h
  cases goals with
  | nil => contradiction
  | cons g rest =>
    refine reads_work (c := ⟨rest, true, taken, blocks⟩) sight orderly.1 ?_ flag
    rintro body n rfl
    exact counted.2.1.resolve_right nofun

end Control

end AvroIdl
