import AvroIdl.Proofs.Grammar
import AvroIdl.Proofs.Parser.Actions
import AvroIdl.Proofs.Parser.Progress

/-!
# What the parser can still read

Each goal of the parser stands for rules of the grammar, `Goal.rules`, and its goals together for
what it can still read without an error, `Reads`.

The main statement is `Control.reads_work`: the tokens that are left can be read from the goals
exactly if the next step reports no error and the tokens left after it can be read from the goals
after it. It holds as long as the goals are in order: a goal whose end the parser finds by looking
at the next token must not be followed by what could be part of it. This is said by `Goal.Meets`.
-/

namespace AvroIdl

open Grammar

namespace Token

/-- A token is one keyword at most. -/
theorem is_eq {t : Token} {k : Keyword} (h : t.is k) (k' : Keyword) : t.is k' = decide (k = k') := by
  simp only [Token.is, Bool.and_eq_true, decide_eq_true_eq] at h
  simp only [Token.is, h.1, h.2]
  cases k <;> cases k' <;> decide

theorem kind_of_is {t : Token} {k : Keyword} (h : t.is k) : t.kind = .keyword := by
  simp only [Token.is, Bool.and_eq_true, decide_eq_true_eq] at h
  exact h.1

theorem ne_eof_of_is {t : Token} {k : Keyword} (h : t.is k) : t.kind ≠ .eof := by
  rw [kind_of_is h]
  decide

theorem is_eq_false {t : Token} {k : Keyword} (h : t.kind ≠ .keyword) : t.is k = false := by
  simp [Token.is, h]

end Token

/-! ## Goals as rules -/

/-- The statements of a body. -/
def Body.rule : Body → Rule
  | document => .part .item
  | protocol => .part .protocolItem
  | record => .part .field

open Rule in
/-- What a goal reads if there are no errors. Symbols that come after a separator are counted with
the separator. -/
def Goal.rules : Goal → List Rule
  | items body | moreItems body _ => [.star body.rule]
  | item body => [body.rule]
  | leftovers | close | leaveBlock | recover _ | skip _ _ | group _ _ | enumSymbols => []
  | name => [.name]
  | mark kind => [.mark kind]
  | integer => [.mark .intLit]
  | annotations => [.annotations]
  | declaration .document => [oneOf (part .protocol) [part .record, part .enum, part .fixed]]
  | declaration .protocol => [oneOf (part .record) [part .enum, part .fixed, part .message]]
  | declaration .record => [oneOf (part .record) [part .enum, part .fixed]]
  | block body => [.mark .openCurl, .star body.rule, .mark .closeCurl]
  | importKind => [oneOf (.keyword .idl) [.keyword .protocol, .keyword .schema]]
  | importPath => [.mark .stringLit]
  | enumBody => [.mark .openCurl, symbols, .mark .closeCurl, .enumDefault]
  | enumSeparator => [restOf .name]
  | enumDefault => [.enumDefault]
  | type => [part .type]
  | typeBody => [.typeBody]
  | nullable => [opt (.mark .question)]
  | unionItems => [closedList (part .type)]
  | unionSeparator => [restOf (part .type)]
  | variableList => [list (part .variableDecl)]
  | moreVariables => [moreOf (part .variableDecl)]
  | variableDecl => [part .variableDecl]
  | initializer => [opt (seq (.mark .eq) (part .json))]
  | params => [closedList parameter]
  | moreParams => [restOf parameter]
  | messageEnd => [.messageEnd]
  | exceptions => [list (.mark .ident)]
  | moreExceptions => [moreOf (.mark .ident)]
  | json => [part .json]
  | members => [closedList (part .member)]
  | moreMembers => [restOf (part .member)]
  | elements => [closedList (part .json)]
  | moreElements => [restOf (part .json)]

/-- What some goals read if there are no errors, one after the other. -/
def Goal.rulesOf (goals : List Goal) : List Rule := goals.flatMap rules

@[simp] theorem Goal.rulesOf_nil : Goal.rulesOf [] = [] := rfl

@[simp] theorem Goal.rulesOf_cons (g : Goal) (goals : List Goal) :
    Goal.rulesOf (g :: goals) = g.rules ++ Goal.rulesOf goals := rfl

@[simp] theorem Goal.rulesOf_append (goals others : List Goal) :
    Goal.rulesOf (goals ++ others) = Goal.rulesOf goals ++ Goal.rulesOf others :=
  List.flatMap_append

/-- A symbol of an enum, where `comma` says whether it comes after a comma. -/
def Grammar.Rule.symbol (comma : Bool) : Rule := if comma then .name else .firstSymbol

/-- The symbols of an enum, where `comma` says whether they come after a comma. -/
def Grammar.Rule.symbolsFrom (comma : Bool) : Rule := .opt (.seq (.symbol comma) (.restOf .name))

/-- The tokens that some goals read if there are no errors, where `comma` says whether a comma comes
before them. -/
def Reads (comma : Bool) : List Goal → List Token → Prop
  | .enumSymbols :: rest, w => Matches (.symbolsFrom comma :: Goal.rulesOf rest) w
  | goals, w => Matches (Goal.rulesOf goals) w

/-- The token in sight, with the tokens that are left. -/
inductive Sight : Token → List Token → Prop
  | eof {t : Token} (h : t.kind = .eof) : Sight t []
  | more {t : Token} {w : List Token} (h : t.kind ≠ .eof) : Sight t (t :: w)

/-- Rules that cannot begin with the token in sight do not match. -/
theorem Sight.not_matches {t : Token} {w : List Token} {rules : List Rule} (sight : Sight t w)
    (first : (Rule.sequence rules).starts t = false)
    (nullable : (Rule.sequence rules).nullable = false) : ¬ Matches rules w := by
  intro h
  cases sight with
  | eof => simp [nullable_of_matches h] at nullable
  | more => simp [starts_of_matches h] at first

/-- Tokens that keep a goal going, or that are an error after it, so that they cannot come after
it. -/
def Goal.clash (t : Token) : Goal → Bool
  | items body | moreItems body _ => t.kind ≠ .eof && !(t.kind = .closeCurl && body ≠ .document)
  | leftovers => t.kind ≠ .eof
  | item _ | declaration _ | enumBody | enumDefault | variableDecl | initializer => t.kind = .eq
  | enumSymbols | enumSeparator | unionItems | unionSeparator => t.kind ≠ .closeCurl
  | members | moreMembers => t.kind ≠ .closeCurl && t.kind ≠ .eof
  | type | nullable => t.kind = .question
  | variableList | moreVariables => t.kind = .comma || t.kind = .eq
  | params | moreParams => t.kind ≠ .closeParen && t.kind ≠ .eof
  | elements | moreElements => t.kind ≠ .closeSquare && t.kind ≠ .eof
  | exceptions | moreExceptions => t.kind = .comma
  | messageEnd => t.is .oneway || t.is .throws || t.kind = .comma
  | _ => false

/-- Rules before which one more annotation can be put when they begin with one. -/
def Grammar.Absorb (rules : List Rule) : Prop :=
  ∀ t w, t.kind = .atSign → Matches rules (t :: w) → Matches (.part .annotationDecl :: rules) (t :: w)

/-- Goals that are there if there are no errors, apart from separators of symbols. -/
def Goal.plain : Goal → Bool
  | skip _ _ | group _ _ | mark .eof | block .document | enumSeparator => false
  | _ => true

/-- A goal that is not for errors, and that ends where what is read by the goals after it begins. -/
structure Goal.Meets (g : Goal) (rest : List Goal) : Prop where
  plain : g.plain = true ∨ g = .enumSeparator
  clash : ∀ {t w}, Sight t w → g.clash t = true → ¬ Matches (rulesOf rest) w
  absorb : g = .annotations → Absorb (rulesOf rest)
  symbols : rest.head? = some .enumSymbols ↔ g = .enumSeparator

/-- Whether an action makes a node that reports an error. -/
def Action.loud : Action → Bool
  | begin kind error => kind = .error && error.isSome
  | becomeError error => error.isSome
  | _ => false

/-- The rules match the tokens that are left if the actions make no error, and the tokens that are
left after the step can be read from the goals after it. -/
def Yields (c : Control) (w : List Token) (rules : List Rule) (actions : List Action)
    (next : Control) : Prop :=
  Matches rules w ↔ (∀ a ∈ actions, a.loud = false) ∧
    Matches (Goal.rulesOf next.goals) (w.drop (next.taken - c.taken))

section

variable {c next : Control} {t : Token} {w : List Token} {rules : List Rule} {actions : List Action}

theorem Yields.loud (sight : Sight t w) (loud : ∃ a ∈ actions, a.loud = true)
    (first : (Rule.sequence rules).starts t = false)
    (nullable : (Rule.sequence rules).nullable = false) : Yields c w rules actions next := by
  refine iff_of_false (sight.not_matches first nullable) fun h => ?_
  obtain ⟨a, mem, loud⟩ := loud
  simp [h.1 a mem] at loud

theorem Yields.take (sight : Sight t w) (kind : t.kind ≠ .eof)
    (quiet : ∀ a ∈ actions, a.loud = false) (taken : next.taken = c.taken + 1)
    (h : ∀ v, Matches rules (t :: v) ↔ Matches (Goal.rulesOf next.goals) v) :
    Yields c w rules actions next := by
  cases sight with
  | eof eof => contradiction
  | more =>
    rw [Yields, taken, Nat.add_sub_cancel_left, List.drop_one, List.tail_cons, h]
    exact (and_iff_right quiet).symm

theorem Yields.stay (quiet : ∀ a ∈ actions, a.loud = false) (taken : next.taken = c.taken)
    (h : Matches rules w ↔ Matches (Goal.rulesOf next.goals) w) :
    Yields c w rules actions next := by
  rw [Yields, taken, Nat.sub_self, List.drop_zero, h]
  exact (and_iff_right quiet).symm

end

/-! ## Working on goals -/

namespace Control

@[simp] theorem goals_push (c : Control) (goals : List Goal) :
    (c.push goals).goals = goals ++ c.goals := rfl

@[simp] theorem goals_count (c : Control) : c.count.goals = c.goals := rfl

@[simp] theorem goals_fail (c : Control) : c.fail.goals = c.goals := rfl

/-- Working on a goal with the token `t` in sight goes on as the rules say. -/
abbrev Works (c : Control) (comma : Bool) (t : Token) (w : List Token) (g : Goal) : Prop :=
  Yields c w (g.rules ++ Goal.rulesOf c.goals) (c.workActions comma t g) (c.work comma t g)

variable {c : Control} {comma : Bool} {t : Token} {w : List Token}

theorem loud_expected (what : Expected) (t : Token) : ∃ a ∈ Action.expected what t, a.loud = true := by
  simp [Action.expected, Action.report, Action.loud]

/-! ### Single tokens -/

theorem works_name (sight : Sight t w) : c.Works comma t w .name := by
  simp only [Works, workActions, work]
  split_ifs with name
  · refine .take sight ?_ (by simp [Action.loud]) rfl fun v => ?_
    · intro eof
      simp [Token.isName, eof] at name
    · have name : t.kind = .ident ∨ t.kind = .keyword := by simpa [Token.isName] using name
      simp [Goal.rules, Rule.name, name]
  · refine .loud sight (loud_expected ..) ?_ rfl
    simpa [Goal.rules, Rule.sequence, Rule.starts, Rule.name, Rule.nullable, Token.isName] using name

theorem works_mark (sight : Sight t w) {kind : TokenKind} (ne : kind ≠ .eof) :
    c.Works comma t w (.mark kind) := by
  simp only [Works, workActions, work, Action.mark]
  split_ifs with is
  · refine .take sight (is ▸ ne) (by simp [Action.loud]) rfl fun v => ?_
    simp [Goal.rules, Rule.mark, is]
  · refine .loud sight (loud_expected ..) ?_ rfl
    simpa [Goal.rules, Rule.sequence, Rule.starts, Rule.mark, Rule.nullable] using is

theorem works_integer (sight : Sight t w) : c.Works comma t w .integer := by
  simp only [Works, workActions, work]
  split_ifs with is
  · refine .take sight (by simp [is]) (by simp [Action.loud]) rfl fun v => ?_
    simp [Goal.rules, Rule.mark, is]
  · refine .loud sight (loud_expected ..) ?_ rfl
    simpa [Goal.rules, Rule.sequence, Rule.starts, Rule.mark, Rule.nullable] using is

theorem works_importPath (sight : Sight t w) : c.Works comma t w .importPath := by
  simp only [Works, workActions, work]
  split_ifs with is
  · refine .take sight (by simp [is]) (by simp [Action.loud]) rfl fun v => ?_
    simp [Goal.rules, Rule.mark, is]
  · refine .loud sight (loud_expected ..) ?_ rfl
    simpa [Goal.rules, Rule.sequence, Rule.starts, Rule.mark, Rule.nullable] using is

theorem works_importKind (sight : Sight t w) : c.Works comma t w .importKind := by
  simp only [Works, workActions, work]
  by_cases is : (t.is .idl || t.is .protocol || t.is .schema) = true
  · rw [if_pos is, if_pos is]
    have words : t.is .idl = true ∨ t.is .protocol = true ∨ t.is .schema = true := by
      simpa [or_assoc] using is
    refine .take sight ?_ (by simp [Action.loud]) rfl fun v => ?_
    · rcases words with h | h | h <;> exact Token.ne_eof_of_is h
    · simp only [Goal.rules, Rule.keyword, goals_count, List.cons_append, List.nil_append,
        matches_oneOf_cons, matches_oneOf_nil, matches_token_cons]
      tauto
  · rw [if_neg is, if_neg is]
    refine .loud sight (loud_expected ..) ?_ rfl
    simpa [Goal.rules, Rule.sequence, Rule.starts, Rule.oneOf, Rule.keyword, Rule.nullable, or_assoc]
      using is

/-! ### Optional parts -/

theorem works_annotations (sight : Sight t w) (meets : Goal.annotations.Meets c.goals) :
    c.Works comma t w .annotations := by
  simp only [Works, workActions, work]
  split_ifs with at_
  · refine .take sight (by simp [at_]) (by simp [Action.loud]) rfl fun v => ?_
    have absorb := meets.absorb rfl t v at_
    have more : Matches (Goal.rulesOf c.goals) (t :: v) →
        Matches (.part .annotationDecl :: .annotations :: Goal.rulesOf c.goals) (t :: v) := fun h =>
      (absorb h).imp fun u hu => matches_annotations.mpr (.inl hu)
    have first : Matches (.part .annotationDecl :: .annotations :: Goal.rulesOf c.goals) (t :: v) ↔
        Matches (.name :: .mark .openParen :: .part .json :: .mark .closeParen :: .annotations ::
          Goal.rulesOf c.goals) v := by
      simp [matches_part, Nonterminal.rule, Rule.mark, at_]
    simp only [Goal.rules, List.cons_append, List.nil_append, matches_annotations, goals_push,
      goals_count, Goal.rulesOf_cons]
    rw [← first]
    exact ⟨fun h => h.elim more id, .inr⟩
  · refine .stay (by simp) rfl ?_
    simp only [Goal.rules, List.cons_append, List.nil_append, matches_annotations]
    refine or_iff_left (sight.not_matches ?_ rfl)
    simpa [Rule.sequence, Rule.starts, Nonterminal.starts, Rule.nullable] using at_

theorem works_nullable (sight : Sight t w) (meets : Goal.nullable.Meets c.goals) :
    c.Works comma t w .nullable := by
  simp only [Works, workActions, work]
  split_ifs with mark
  · refine .take sight (by simp [mark]) (by simp [Action.loud]) rfl fun v => ?_
    have clash := meets.clash (.more (t := t) (w := v) (by simp [mark])) (by simp [Goal.clash, mark])
    simp [Goal.rules, Rule.mark, mark, clash]
  · refine .stay (by simp) rfl ?_
    simp only [Goal.rules, List.cons_append, List.nil_append, matches_opt]
    refine or_iff_right (sight.not_matches ?_ rfl)
    simpa [Rule.sequence, Rule.starts, Rule.mark, Rule.nullable] using mark

theorem works_initializer (sight : Sight t w) (meets : Goal.initializer.Meets c.goals) :
    c.Works comma t w .initializer := by
  simp only [Works, workActions, work]
  split_ifs with mark
  · refine .take sight (by simp [mark]) (by simp [Action.loud]) rfl fun v => ?_
    have clash := meets.clash (.more (t := t) (w := v) (by simp [mark])) (by simp [Goal.clash, mark])
    simp [Goal.rules, Rule.mark, mark, clash]
  · refine .stay (by simp) rfl ?_
    simp only [Goal.rules, List.cons_append, List.nil_append, matches_opt]
    refine or_iff_right (sight.not_matches ?_ rfl)
    simpa [Rule.sequence, Rule.starts, Rule.mark, Rule.nullable] using mark

theorem works_enumDefault (sight : Sight t w) (meets : Goal.enumDefault.Meets c.goals) :
    c.Works comma t w .enumDefault := by
  simp only [Works, workActions, work]
  split_ifs with mark
  · refine .take sight (by simp [mark]) (by simp [Action.loud]) rfl fun v => ?_
    have clash := meets.clash (.more (t := t) (w := v) (by simp [mark])) (by simp [Goal.clash, mark])
    simp [Goal.rules, Rule.enumDefault, Rule.mark, mark, clash]
  · refine .stay (by simp) rfl ?_
    simp only [Goal.rules, List.cons_append, List.nil_append, Rule.enumDefault, matches_opt]
    refine or_iff_right (sight.not_matches ?_ rfl)
    simpa [Rule.sequence, Rule.starts, Rule.mark, Rule.nullable] using mark

theorem works_messageEnd (sight : Sight t w) (meets : Goal.messageEnd.Meets c.goals) :
    c.Works comma t w .messageEnd := by
  simp only [Works, workActions, work]
  split_ifs with oneway throws
  · have more := Token.ne_eof_of_is oneway
    refine .take sight more (by simp [Action.loud]) rfl fun v => ?_
    have clash := meets.clash (.more (t := t) (w := v) more) (by simp [Goal.clash, oneway])
    simp [Goal.rules, Rule.messageEnd, Rule.keyword, Token.is_eq oneway, clash]
  · have more := Token.ne_eof_of_is throws
    refine .take sight more (by simp [Action.loud]) rfl fun v => ?_
    have clash := meets.clash (.more (t := t) (w := v) more) (by simp [Goal.clash, throws])
    simp [Goal.rules, Rule.messageEnd, Rule.keyword, Token.is_eq throws, clash]
  · refine .stay (by simp) rfl ?_
    simp only [Goal.rules, List.cons_append, List.nil_append, Rule.messageEnd, matches_opt]
    refine or_iff_right (sight.not_matches ?_ rfl)
    simp [Rule.sequence, Rule.starts, Rule.keyword, Rule.nullable, oneway, throws]

/-! ### Lists -/

theorem works_unionItems (sight : Sight t w) (meets : Goal.unionItems.Meets c.goals) :
    c.Works comma t w .unionItems := by
  simp only [Works, workActions, work]
  split_ifs with stop
  · refine .stay (by simp) rfl ?_
    simp only [Goal.rules, List.cons_append, List.nil_append, matches_closedList]
    refine or_iff_right (sight.not_matches ?_ rfl)
    simp only [Bool.or_eq_true, decide_eq_true_eq] at stop
    rcases stop with h | h <;>
      simp [Rule.sequence, Rule.starts, Rule.nullable, Nonterminal.starts, Token.beginsType, Token.is, h]
  · refine .stay (by simp) rfl ?_
    simp only [Goal.rules, List.cons_append, List.nil_append, matches_closedList, goals_push,
      Goal.rulesOf_cons]
    exact or_iff_left (meets.clash sight (by simp_all [Goal.clash]))

theorem works_elements (sight : Sight t w) (meets : Goal.elements.Meets c.goals) :
    c.Works comma t w .elements := by
  simp only [Works, workActions, work]
  split_ifs with stop
  · refine .stay (by simp) rfl ?_
    simp only [Goal.rules, List.cons_append, List.nil_append, matches_closedList]
    refine or_iff_right (sight.not_matches ?_ rfl)
    simp only [Bool.or_eq_true, decide_eq_true_eq] at stop
    rcases stop with h | h <;>
      simp [Rule.sequence, Rule.starts, Rule.nullable, Nonterminal.starts, Token.isJsonLiteral, Token.is, h]
  · refine .stay (by simp) rfl ?_
    simp only [Goal.rules, List.cons_append, List.nil_append, matches_closedList, goals_push,
      Goal.rulesOf_cons]
    exact or_iff_left (meets.clash sight (by simpa [Goal.clash] using stop))

theorem works_params (sight : Sight t w) (meets : Goal.params.Meets c.goals) :
    c.Works comma t w .params := by
  simp only [Works, workActions, work]
  split_ifs with stop
  · refine .stay (by simp) rfl ?_
    simp only [Goal.rules, List.cons_append, List.nil_append, matches_closedList]
    refine or_iff_right (sight.not_matches ?_ rfl)
    simp only [Bool.or_eq_true, decide_eq_true_eq] at stop
    rcases stop with h | h <;>
      simp [Rule.sequence, Rule.starts, Rule.nullable, Rule.parameter, Nonterminal.starts, Token.beginsType, Token.is, h]
  · refine .stay (by simp [Action.loud]) rfl ?_
    simp only [Goal.rules, List.cons_append, List.nil_append, matches_closedList, goals_push,
      Goal.rulesOf_cons]
    rw [or_iff_left (meets.clash sight (by simpa [Goal.clash] using stop)), Rule.parameter, matches_seq]

theorem works_members (sight : Sight t w) (meets : Goal.members.Meets c.goals) :
    c.Works comma t w .members := by
  simp only [Works, workActions, work]
  split_ifs with stop key
  · refine .stay (by simp) rfl ?_
    simp only [Goal.rules, List.cons_append, List.nil_append, matches_closedList]
    refine or_iff_right (sight.not_matches ?_ rfl)
    simp only [Bool.or_eq_true, decide_eq_true_eq] at stop
    rcases stop with h | h <;>
      simp [Rule.sequence, Rule.starts, Rule.nullable, Nonterminal.starts, h]
  · refine .take sight (by simp [key]) (by simp [Action.loud]) rfl fun v => ?_
    have clash := meets.clash (.more (t := t) (w := v) (by simp [key])) (by simp [Goal.clash, key])
    simp [Goal.rules, matches_closedList, clash, matches_part, Nonterminal.rule, Rule.mark, key]
  · refine iff_of_false ?_ (by simp [Action.expected, Action.report, Action.loud])
    simp only [Goal.rules, List.cons_append, List.nil_append, matches_closedList]
    rintro (h | h)
    · refine sight.not_matches ?_ rfl h
      simpa [Rule.sequence, Rule.starts, Rule.nullable, Nonterminal.starts] using key
    · exact meets.clash sight (by simpa [Goal.clash] using stop) h

theorem works_exceptions (sight : Sight t w) : c.Works comma t w .exceptions := by
  simp only [Works, workActions, work]
  split_ifs with is
  · refine .take sight (by simp [is]) (by simp [Action.loud]) rfl fun v => ?_
    simp [Goal.rules, Rule.list, Rule.mark, is]
  · refine .loud sight (loud_expected ..) ?_ rfl
    simpa [Goal.rules, Rule.sequence, Rule.starts, Rule.list, Rule.mark, Rule.nullable] using is

/-- A list that goes on after a comma, where another comma may end it. -/
theorem yields_restOf {a : Rule} {g list : Goal} (sight : Sight t w) (meets : g.Meets c.goals)
    (clash : t.kind = .comma → g.clash t = true) (h : list.rules = [.closedList a]) :
    Yields c w (.restOf a :: Goal.rulesOf c.goals) (Action.separator t)
      (if t.kind = .comma then c.count.push [list] else c) := by
  unfold Action.separator
  split_ifs with is
  · refine .take sight (by simp [is]) (by simp [Action.loud]) rfl fun v => ?_
    have clash := meets.clash (.more (t := t) (w := v) (by simp [is])) (clash is)
    simp [matches_restOf, clash, Rule.mark, is, h]
  · refine .stay (by simp) rfl ?_
    rw [matches_restOf]
    refine or_iff_left (sight.not_matches ?_ rfl)
    simpa [Rule.sequence, Rule.starts, Rule.mark, Rule.nullable] using is

/-- A list that goes on after a comma. -/
theorem yields_moreOf {a : Rule} {g list : Goal} (sight : Sight t w) (meets : g.Meets c.goals)
    (clash : t.kind = .comma → g.clash t = true) (h : list.rules = [.list a]) :
    Yields c w (.moreOf a :: Goal.rulesOf c.goals) (Action.separator t)
      (if t.kind = .comma then c.count.push [list] else c) := by
  unfold Action.separator
  split_ifs with is
  · refine .take sight (by simp [is]) (by simp [Action.loud]) rfl fun v => ?_
    have clash := meets.clash (.more (t := t) (w := v) (by simp [is])) (clash is)
    simp [matches_moreOf, clash, Rule.mark, is, h]
  · refine .stay (by simp) rfl ?_
    rw [matches_moreOf]
    refine or_iff_left (sight.not_matches ?_ rfl)
    simpa [Rule.sequence, Rule.starts, Rule.mark, Rule.nullable] using is

theorem works_unionSeparator (sight : Sight t w) (meets : Goal.unionSeparator.Meets c.goals) :
    c.Works comma t w .unionSeparator := by
  simp only [Works, workActions, work]
  split_ifs with comma stop
  · refine .take sight (by simp [comma]) (by simp [Action.loud]) rfl fun v => ?_
    have clash := meets.clash (.more (t := t) (w := v) (by simp [comma])) (by simp [Goal.clash, comma])
    simp [Goal.rules, matches_restOf, clash, Rule.mark, comma]
  · refine .stay (by simp) rfl ?_
    simp only [Goal.rules, List.cons_append, List.nil_append, matches_restOf]
    refine or_iff_left (sight.not_matches ?_ rfl)
    simpa [Rule.sequence, Rule.starts, Rule.mark, Rule.nullable] using comma
  · refine iff_of_false ?_ (by simp [Action.expected, Action.report, Action.loud])
    simp only [Goal.rules, List.cons_append, List.nil_append, matches_restOf]
    rintro (h | h)
    · exact meets.clash sight (by simpa [Goal.clash] using stop) h
    · refine sight.not_matches ?_ rfl h
      simpa [Rule.sequence, Rule.starts, Rule.mark, Rule.nullable] using comma

/-! ### Types and values -/

theorem works_type (sight : Sight t w) : c.Works comma t w .type := by
  simp only [Works, workActions, work]
  split_ifs with begins
  · refine .stay (by simp [Action.loud]) rfl ?_
    simp [Goal.rules, matches_part, Nonterminal.rule]
  · refine .loud sight (loud_expected ..) ?_ rfl
    simpa [Goal.rules, Rule.sequence, Rule.starts, Nonterminal.starts, Rule.nullable] using begins

theorem works_typeBody (sight : Sight t w) : c.Works comma t w .typeBody := by
  simp only [Works, workActions, work, Action.typeBody, Control.typeBody]
  split_ifs with array map union decimal word
  · refine .take sight (Token.ne_eof_of_is array) (by simp [Action.loud]) rfl fun v => ?_
    simp [Goal.rules, Rule.typeBody, Rule.mark, Rule.keyword, Token.is_eq array,
      Token.kind_of_is array]
  · refine .take sight (Token.ne_eof_of_is map) (by simp [Action.loud]) rfl fun v => ?_
    simp [Goal.rules, Rule.typeBody, Rule.mark, Rule.keyword, Token.is_eq map, Token.kind_of_is map]
  · refine .take sight (Token.ne_eof_of_is union) (by simp [Action.loud]) rfl fun v => ?_
    simp [Goal.rules, Rule.typeBody, Rule.mark, Rule.keyword, Token.is_eq union,
      Token.kind_of_is union]
  · refine .take sight (Token.ne_eof_of_is decimal) (by simp [Action.loud]) rfl fun v => ?_
    simp [Goal.rules, Rule.typeBody, Rule.mark, Rule.keyword, Token.is_eq decimal,
      Token.kind_of_is decimal]
  · have word : t.kind = .ident ∨ t.is .null = true := by simpa using word
    refine .take sight ?_ (by simp [Action.loud]) rfl fun v => ?_
    · rcases word with h | h
      · simp [h]
      · exact Token.ne_eof_of_is h
    · simp only [Goal.rules, Rule.typeBody, Rule.mark, Rule.keyword, List.cons_append,
        List.nil_append, matches_oneOf_cons, matches_oneOf_nil, matches_token_cons,
        matches_sequence, array, map, union, decimal, goals_count, decide_eq_true_eq]
      tauto
  · refine .loud sight (by simp [Action.loud]) ?_ rfl
    simp_all [Goal.rules, Rule.sequence, Rule.starts, Rule.typeBody, Rule.nullable, Rule.oneOf,
      Rule.mark, Rule.keyword]

theorem works_json (sight : Sight t w) : c.Works comma t w .json := by
  simp only [Works, workActions, work, Action.json]
  split_ifs with curl square literal
  · refine .take sight (by simp [curl]) (by simp [Action.loud]) rfl fun v => ?_
    simp [Goal.rules, matches_part, Nonterminal.rule, Rule.literal, Rule.mark, Rule.keyword, curl,
      Token.is]
  · refine .take sight (by simp [square]) (by simp [Action.loud]) rfl fun v => ?_
    simp [Goal.rules, matches_part, Nonterminal.rule, Rule.literal, Rule.mark, Rule.keyword, square,
      Token.is]
  · refine .take sight ?_ (by simp [Action.loud]) rfl fun v => ?_
    · intro eof
      simp [Token.isJsonLiteral, eof, Token.is] at literal
    · have literal : t.kind = .stringLit ∨ t.kind = .intLit ∨ t.kind = .floatLit ∨ t.kind = .boolLit ∨ t.is .null = true := by simpa [Token.isJsonLiteral, or_assoc] using literal
      simp only [Goal.rules, matches_part, Nonterminal.rule, Rule.literal, Rule.mark, Rule.keyword, List.cons_append,
        List.nil_append, matches_oneOf_cons, matches_oneOf_nil, matches_token_cons,
        matches_sequence, curl, square, goals_count, decide_eq_true_eq]
      tauto
  · refine .loud sight (loud_expected ..) ?_ rfl
    simp_all [Goal.rules, Rule.sequence, Rule.starts, Rule.nullable, Nonterminal.starts]

theorem works_variableDecl : c.Works comma t w .variableDecl := by
  refine .stay (by simp [workActions, Action.loud]) rfl ?_
  simp [Goal.rules, work, matches_part, Nonterminal.rule]

theorem works_variableList : c.Works comma t w .variableList := by
  refine .stay (by simp [workActions]) rfl ?_
  simp [Goal.rules, work, Rule.list]

/-! ### Statements -/

theorem works_block (sight : Sight t w) {body : Body} : c.Works comma t w (.block body) := by
  simp only [Works, workActions, work, openBraceActions, openBrace]
  split_ifs with curl
  · refine .take sight (by simp [curl]) (by simp [Action.loud]) rfl fun v => ?_
    simp [Goal.rules, Rule.mark, curl]
  · refine .loud sight ?_ ?_ rfl
    · obtain ⟨a, mem, loud⟩ := loud_expected (.mark .openCurl) t
      exact ⟨a, List.mem_append_left _ mem, loud⟩
    · simpa [Goal.rules, Rule.sequence, Rule.starts, Rule.nullable, Rule.mark] using curl

/-- No statement begins where a body ends. -/
theorem starts_body {body : Body} (stop : t.kind = .eof ∨ t.kind = .closeCurl) :
    body.rule.starts t = false := by
  rcases stop with h | h <;> cases body <;>
    simp [Body.rule, Rule.starts, Nonterminal.starts, Token.beginsDeclaration, Token.beginsType,
      Token.beginsNamedType, Token.is, h]

theorem nullable_body (body : Body) : body.rule.nullable = false := by cases body <;> rfl

theorem works_items (sight : Sight t w) {body : Body} (meets : (Goal.items body).Meets c.goals) :
    c.Works comma t w (.items body) := by
  simp only [Works, workActions, work]
  split_ifs with stop
  · refine .stay (by simp) rfl ?_
    simp only [Goal.rules, List.cons_append, List.nil_append, matches_star]
    have starts : body.rule.starts t = false := starts_body <| by
      simp only [Bool.or_eq_true, Bool.and_eq_true, decide_eq_true_eq] at stop
      exact stop.imp_right And.left
    refine or_iff_left (sight.not_matches ?_ ?_)
    · simp [Rule.sequence, Rule.starts, starts, nullable_body]
    · simp [Rule.sequence, Rule.nullable, nullable_body]
  · refine .stay (by simp) rfl ?_
    simp only [Goal.rules, List.cons_append, List.nil_append, matches_star, goals_push,
      Goal.rulesOf_cons]
    refine or_iff_right (meets.clash sight ?_)
    simpa [Goal.clash, imp_iff_not_or] using stop

theorem works_moreItems {body : Body} {taken : Nat} (more : taken < c.taken) :
    c.Works comma t w (.moreItems body taken) := by
  refine .stay (by simp [workActions]) ?_ ?_
  · simp [work, more]
  · simp [work, more, Goal.rules]

theorem works_leftovers (sight : Sight t w) (meets : Goal.leftovers.Meets c.goals) :
    c.Works comma t w .leftovers := by
  simp only [Works, workActions, work]
  split_ifs with eof
  · exact .stay (by simp) rfl (by simp [Goal.rules])
  · refine iff_of_false ?_ (by simp [Action.loud])
    exact meets.clash sight (by simpa [Goal.clash] using eof)

theorem works_item (sight : Sight t w) {body : Body} : c.Works comma t w (.item body) := by
  simp only [Works, workActions, work]
  cases body with
  | document =>
    have plain (v : List Token) (more : t.kind ≠ .eof) (other : t.kind ≠ .atSign) (h : t.is .protocol = false)
        (h' : t.beginsNamedType = false) : ¬ Matches (.annotations :: .oneOf (.part .protocol)
          [.part .record, .part .enum, .part .fixed] :: Goal.rulesOf c.goals) (t :: v) := by
      refine (Sight.more more).not_matches ?_ rfl
      simp_all [Rule.sequence, Rule.starts, Rule.annotations, Rule.nullable, Rule.oneOf,
        Nonterminal.starts, Token.beginsNamedType]
    simp only [item, Action.item]
    split_ifs with importing nameSpace schema begins
    · have more := Token.ne_eof_of_is importing
      refine .take sight more (by simp [Action.loud]) rfl fun v => ?_
      have plain := plain v more (by simp [Token.kind_of_is importing])
        (by simp [Token.is_eq importing]) (by simp [Token.beginsNamedType, Token.is_eq importing])
      simp [Goal.rules, Body.rule, importRest, matches_part, Nonterminal.rule, Rule.keyword,
        Token.is_eq importing, plain]
    · have more := Token.ne_eof_of_is nameSpace
      refine .take sight more (by simp [Action.loud]) rfl fun v => ?_
      have plain := plain v more (by simp [Token.kind_of_is nameSpace])
        (by simp [Token.is_eq nameSpace]) (by simp [Token.beginsNamedType, Token.is_eq nameSpace])
      simp [Goal.rules, Body.rule, matches_part, Nonterminal.rule, Rule.keyword,
        Token.is_eq nameSpace, plain]
    · have more := Token.ne_eof_of_is schema
      refine .take sight more (by simp [Action.loud]) rfl fun v => ?_
      have plain := plain v more (by simp [Token.kind_of_is schema])
        (by simp [Token.is_eq schema]) (by simp [Token.beginsNamedType, Token.is_eq schema])
      simp [Goal.rules, Body.rule, matches_part, Nonterminal.rule, Rule.keyword,
        Token.is_eq schema, plain]
    · refine .stay (by simp [Action.loud]) rfl ?_
      cases sight with
      | eof eof => simp [Token.beginsDeclaration, Token.is, eof] at begins
      | more => simp [Goal.rules, Body.rule, matches_part, Nonterminal.rule, Rule.keyword, importing,
          nameSpace, schema]
    · refine .loud sight (by simp [Action.loud]) ?_ rfl
      simpa [Goal.rules, Rule.sequence, Body.rule, Rule.starts, Nonterminal.starts, Rule.nullable]
        using begins
  | protocol =>
    simp only [item, Action.item]
    split_ifs with importing begins
    · have more := Token.ne_eof_of_is importing
      refine .take sight more (by simp [Action.loud]) rfl fun v => ?_
      have plain : ¬ Matches (.annotations :: .oneOf (.part .record)
          [.part .enum, .part .fixed, .part .message] :: Goal.rulesOf c.goals) (t :: v) := by
        refine (Sight.more more).not_matches ?_ rfl
        simp [Rule.sequence, Rule.starts, Rule.annotations, Rule.nullable, Rule.oneOf,
          Nonterminal.starts, Token.beginsType, Token.is_eq importing, Token.kind_of_is importing]
      simp [Goal.rules, Body.rule, importRest, matches_part, Nonterminal.rule, Rule.keyword,
        Token.is_eq importing, plain]
    · refine .stay (by simp [Action.loud]) rfl ?_
      cases sight with
      | eof eof => simp [Token.beginsType, Token.beginsNamedType, Token.is, eof] at begins
      | more => simp [Goal.rules, Body.rule, matches_part, Nonterminal.rule, Rule.keyword, importing]
    · refine .loud sight (by simp [Action.loud]) ?_ rfl
      simp_all [Goal.rules, Rule.sequence, Body.rule, Rule.starts, Nonterminal.starts, Rule.nullable]
  | record =>
    refine .stay (by simp [Action.item, Action.loud]) rfl ?_
    simp [Goal.rules, item, Body.rule, matches_part, Nonterminal.rule]

theorem works_declaration (sight : Sight t w) {body : Body} :
    c.Works comma t w (.declaration body) := by
  have other {n : Nonterminal} (more : t.kind ≠ .eof) (h : n.starts t = false) (part : n ≠ .document)
      (rules : List Rule) (v : List Token) : ¬ Matches (.part n :: rules) (t :: v) := by
    refine (Sight.more more).not_matches ?_ ?_
    · simp [Rule.sequence, Rule.starts, Rule.nullable, h, part]
    · simp [Rule.sequence, Rule.nullable, part]
  simp only [Works, workActions, work, declarationActions, declaration]
  split_ifs with protocol record error enum fixed void type
  · simp only [Bool.and_eq_true, decide_eq_true_eq] at protocol
    obtain ⟨is, rfl⟩ := protocol
    refine .take sight (Token.ne_eof_of_is is) (by simp [Action.loud]) rfl fun v => ?_
    simp [Goal.rules, Body.rule, matches_part, Nonterminal.rule, Rule.keyword, Token.is_eq is]
  · have more := Token.ne_eof_of_is record
    refine .take sight more (by simp [Action.loud]) rfl fun v => ?_
    have noMessage := other (n := .message) more
      (by simp [Nonterminal.starts, Token.beginsType, Token.is_eq record, Token.kind_of_is record])
    cases body <;>
      simp [Goal.rules, Body.rule, noMessage, matches_part, Nonterminal.rule, Rule.keyword,
        Token.is_eq record]
  · have more := Token.ne_eof_of_is error
    refine .take sight more (by simp [Action.loud]) rfl fun v => ?_
    have noMessage := other (n := .message) more
      (by simp [Nonterminal.starts, Token.beginsType, Token.is_eq error, Token.kind_of_is error])
    cases body <;>
      simp [Goal.rules, Body.rule, noMessage, matches_part, Nonterminal.rule, Rule.keyword,
        Token.is_eq error]
  · have more := Token.ne_eof_of_is enum
    refine .take sight more (by simp [Action.loud]) rfl fun v => ?_
    have noMessage := other (n := .message) more
      (by simp [Nonterminal.starts, Token.beginsType, Token.is_eq enum, Token.kind_of_is enum])
    cases body <;>
      simp [Goal.rules, noMessage, matches_part, Nonterminal.rule, Rule.keyword, Token.is_eq enum]
  · have more := Token.ne_eof_of_is fixed
    refine .take sight more (by simp [Action.loud]) rfl fun v => ?_
    have noMessage := other (n := .message) more
      (by simp [Nonterminal.starts, Token.beginsType, Token.is_eq fixed, Token.kind_of_is fixed])
    cases body <;>
      simp [Goal.rules, noMessage, matches_part, Nonterminal.rule, Rule.keyword, Token.is_eq fixed]
  · simp only [Bool.and_eq_true, decide_eq_true_eq] at void
    obtain ⟨rfl, is⟩ := void
    have more := Token.ne_eof_of_is is
    refine .take sight more (by simp [Action.loud]) rfl fun v => ?_
    have noType := other (n := .type) more
      (by simp [Nonterminal.starts, Token.beginsType, Token.is_eq is, Token.kind_of_is is])
    simp [Goal.rules, Machine.messageRest, noType, matches_part, Nonterminal.rule, Rule.keyword,
      Token.is_eq is]
  · simp only [Bool.and_eq_true, decide_eq_true_eq, not_and] at type void
    obtain ⟨rfl, begins⟩ := type
    have noVoid : t.is .void = false := by simpa using void rfl
    refine .stay (by simp [Action.loud]) rfl ?_
    cases sight with
    | eof eof => simp [Token.beginsType, Token.is, eof] at begins
    | more =>
      simp [Goal.rules, Machine.messageRest, matches_part (n := .record), matches_part (n := .enum),
        matches_part (n := .fixed), matches_part (n := .message), Nonterminal.rule, Rule.keyword,
        record, error, enum, fixed, noVoid]
  · refine .loud sight (by simp [Action.report, Action.loud]) ?_ ?_
    · cases body <;>
        simp_all [Goal.rules, Rule.sequence, Rule.starts, Rule.nullable, Rule.oneOf,
          Nonterminal.starts]
    · cases body <;> rfl

/-! ### Enums -/

theorem reads_eq {goals : List Goal} (h : goals.head? ≠ some .enumSymbols) :
    Reads comma goals w ↔ Matches (Goal.rulesOf goals) w := by
  unfold Reads
  split
  · simp at h
  · rfl

/-- The symbols of an enum begin with its brace, so that no comma is before them. -/
theorem reads_enumBody (sight : Sight t w) {comma' : Bool} (flag : t.kind = .openCurl → comma' = false) :
    Reads comma (.enumBody :: c.goals) w ↔
      (∀ a ∈ c.workActions comma t .enumBody, a.loud = false) ∧
        Reads comma' (c.work comma t .enumBody).goals
          (w.drop ((c.work comma t .enumBody).taken - c.taken)) := by
  simp only [workActions, work, openBraceActions, openBrace]
  split_ifs with curl
  · cases sight with
    | eof eof => simp [eof] at curl
    | more =>
      have list : Rule.symbolsFrom comma' = .symbols := by rw [flag curl]; rfl
      simp [Reads, Goal.rules, Rule.mark, curl, Action.loud, list]
  · refine iff_of_false ?_ (by simp [Action.expected, Action.report, Action.loud])
    refine sight.not_matches ?_ rfl
    simpa [Goal.rules, Rule.sequence, Rule.starts, Rule.nullable, Rule.mark] using curl

theorem starts_symbol :
    (Rule.symbol comma).starts t = (t.isName && (comma || !t.beginsDeclaration)) := by
  cases comma <;> simp [Rule.symbol, Rule.firstSymbol, Rule.name, Rule.starts, Token.isName]

/-- There are no symbols if the token in sight is none. -/
theorem matches_symbols_stop {rules : List Rule} (sight : Sight t w)
    (stop : (Rule.symbol comma).starts t = false) :
    Matches (.symbolsFrom comma :: rules) w ↔ Matches rules w := by
  have plain : (Rule.symbol comma).nullable = false := by cases comma <;> rfl
  rw [Rule.symbolsFrom, matches_opt, matches_seq]
  refine or_iff_right (sight.not_matches ?_ ?_)
  · simp only [Rule.sequence, List.foldr_cons, Rule.starts, stop, plain, Bool.false_and,
      Bool.or_self]
  · simp only [Rule.sequence, List.foldr_cons, Rule.nullable, plain, Bool.false_and]

/-- After a symbol there can be a comma, after which there may be more of them. -/
theorem reads_enumSeparator (sight : Sight t w) {rest : List Goal}
    (goals : c.goals = .enumSymbols :: rest) (meets : Goal.enumSeparator.Meets c.goals)
    {comma' : Bool} (flag : t.kind = .comma → comma' = true) :
    Reads comma (.enumSeparator :: c.goals) w ↔
      (∀ a ∈ c.workActions comma t .enumSeparator, a.loud = false) ∧
        Reads comma' (c.work comma t .enumSeparator).goals
          (w.drop ((c.work comma t .enumSeparator).taken - c.taken)) := by
  have first : Reads comma (.enumSeparator :: c.goals) w ↔
      Matches (.restOf .name :: Goal.rulesOf rest) w := by
    rw [goals]
    exact Iff.rfl
  have symbols (v : List Token) : Reads comma' c.goals v ↔
      Matches (.symbolsFrom comma' :: Goal.rulesOf rest) v := by
    rw [goals]
    exact Iff.rfl
  have clash (h : t.kind ≠ .closeCurl) : ¬ Matches (Goal.rulesOf rest) w := by
    have := meets.clash sight (by simpa [Goal.clash] using h)
    rwa [goals] at this
  rw [first, matches_restOf]
  simp only [workActions, work]
  split_ifs with is stop
  · rw [goals_count, symbols, or_iff_right (clash (by simp [is]))]
    cases sight with
    | eof eof => simp [eof] at is
    | more =>
      have list : Rule.symbolsFrom comma' = .closedList .name := by rw [flag is]; rfl
      simp [list, Rule.mark, is, Action.loud]
  · have noSymbol : (Rule.symbol comma').starts t = false := by
      simp [starts_symbol, Token.isName, stop]
    rw [symbols, Nat.sub_self, List.drop_zero, matches_symbols_stop sight noSymbol]
    have noComma : ¬ Matches (.mark .comma :: .closedList .name :: Goal.rulesOf rest) w :=
      sight.not_matches (by simpa [Rule.sequence, Rule.starts, Rule.mark, Rule.nullable] using is) rfl
    simp [noComma]
  · refine iff_of_false ?_ (by simp [Action.expected, Action.report, Action.loud])
    rintro (h | h)
    · exact clash stop h
    · refine sight.not_matches ?_ rfl h
      simpa [Rule.sequence, Rule.starts, Rule.mark, Rule.nullable] using is

/-- A symbol is taken if there is one. A word that begins a declaration is one after a comma. -/
theorem reads_enumSymbols (sight : Sight t w) (meets : Goal.enumSymbols.Meets c.goals)
    {comma' : Bool} :
    Reads comma (.enumSymbols :: c.goals) w ↔
      (∀ a ∈ c.workActions comma t .enumSymbols, a.loud = false) ∧
        Reads comma' (c.work comma t .enumSymbols).goals
          (w.drop ((c.work comma t .enumSymbols).taken - c.taken)) := by
  have head : c.goals.head? ≠ some .enumSymbols := fun h => by
    simpa using meets.symbols.mp h
  simp only [workActions, work, Action.enumSymbols]
  split_ifs with stop name
  · have noSymbol : (Rule.symbol comma).starts t = false := by
      rw [starts_symbol]
      simp only [Bool.or_eq_true, Bool.and_eq_true, decide_eq_true_eq] at stop
      rcases stop with (h | h) | h
      · simp [Token.isName, h]
      · simp [Token.isName, h]
      · simp_all
    rw [Nat.sub_self, List.drop_zero, reads_eq head, Reads, matches_symbols_stop sight noSymbol]
    simp
  · cases sight with
    | eof eof => simp [Token.isName, eof] at name
    | @more v more =>
      have isSymbol : ∀ rules : List Rule,
          Matches (.symbol comma :: rules) (t :: v) ↔ Matches rules v := by
        intro rules
        have starts : (Rule.symbol comma).starts t = true := by
          rw [starts_symbol]
          cases comma <;> simp_all
        revert starts
        cases comma <;> simp [Rule.symbol, Rule.firstSymbol, Rule.name, Rule.starts] <;> tauto
      have clash := meets.clash (.more (t := t) (w := v) more) (by simp_all [Goal.clash])
      simp [Reads, Rule.symbolsFrom, isSymbol, clash, Goal.rules, Action.loud]
  · refine iff_of_false ?_ (by simp [Action.loud])
    have noSymbol : (Rule.symbol comma).starts t = false := by simp [starts_symbol, name]
    rw [Reads, matches_symbols_stop sight noSymbol]
    exact meets.clash sight (by simp_all [Goal.clash])

/-! ### All goals -/

/-- Symbols come first only after the brace of an enum and after a separator. -/
theorem head_work {g : Goal} (head : c.goals.head? ≠ some .enumSymbols) (noBody : g ≠ .enumBody)
    (noSymbols : g ≠ .enumSymbols) : (c.work comma t g).goals.head? ≠ some .enumSymbols := by
  have recover (skipped : Option Skipped) : (c.recover t skipped).goals.head? ≠ some .enumSymbols := by
    rcases skipped with _ | _ | _
    · exact head
    · simp only [Control.recover]
      split_ifs <;> simp [head]
    · simp only [Control.recover]
      split_ifs <;> simp [head]
  cases g with
  | enumBody | enumSymbols => contradiction
  | item body =>
    cases body <;> simp only [work, item] <;> (try split_ifs) <;> simp [importRest]
  | declaration body =>
    simp only [work, declaration]
    split_ifs <;> first | exact recover _ | simp [Machine.messageRest]
  | block body =>
    simp only [work, openBrace]
    split_ifs <;> first | exact recover _ | simp
  | skip skipped any =>
    cases skipped <;> simp only [work, skipOne] <;> split_ifs <;> cases t.closer? <;> simp [head]
  | group skipped closers =>
    simp only [work, Control.group]
    cases t.closer? <;> cases closers.tail <;> dsimp only <;> split_ifs <;> simp [head]
  | typeBody =>
    simp only [work, typeBody]
    split_ifs <;> simp [head]
  | _ =>
    simp only [work]
    (try split_ifs) <;> simp [head]

theorem works {g : Goal} (sight : Sight t w) (meets : g.Meets c.goals)
    (more : ∀ body taken, g = .moreItems body taken → taken < c.taken) (noBody : g ≠ .enumBody)
    (noSymbols : g ≠ .enumSymbols) (noSeparator : g ≠ .enumSeparator) : c.Works comma t w g := by
  cases g with
  | enumBody | enumSymbols | enumSeparator => contradiction
  | skip | group => exact absurd meets.plain (by simp [Goal.plain])
  | items body => exact works_items sight meets
  | moreItems body taken => exact works_moreItems (more body taken rfl)
  | item body => exact works_item sight
  | leftovers => exact works_leftovers sight meets
  | close | leaveBlock | recover => exact .stay (by simp [workActions, Action.loud]) rfl Iff.rfl
  | name => exact works_name sight
  | mark kind =>
    refine works_mark sight ?_
    rintro rfl
    exact absurd meets.plain (by simp [Goal.plain])
  | integer => exact works_integer sight
  | annotations => exact works_annotations sight meets
  | declaration body => exact works_declaration sight
  | block body => exact works_block sight
  | importKind => exact works_importKind sight
  | importPath => exact works_importPath sight
  | enumDefault => exact works_enumDefault sight meets
  | type => exact works_type sight
  | typeBody => exact works_typeBody sight
  | nullable => exact works_nullable sight meets
  | unionItems => exact works_unionItems sight meets
  | unionSeparator => exact works_unionSeparator sight meets
  | variableList => exact works_variableList
  | variableDecl => exact works_variableDecl
  | initializer => exact works_initializer sight meets
  | params => exact works_params sight meets
  | messageEnd => exact works_messageEnd sight meets
  | exceptions => exact works_exceptions sight
  | json => exact works_json sight
  | members => exact works_members sight meets
  | elements => exact works_elements sight meets
  | moreVariables | moreExceptions =>
    exact yields_moreOf sight meets (fun is => by simp [Goal.clash, is]) rfl
  | moreParams | moreMembers | moreElements =>
    exact yields_restOf sight meets (fun is => by simp [Goal.clash, is]) rfl

/-- The tokens that are left can be read from the goals if the next step makes no error and the
tokens left after it can be read from the goals after it. -/
theorem reads_work {g : Goal} (sight : Sight t w) (meets : g.Meets c.goals)
    (more : ∀ body taken, g = .moreItems body taken → taken < c.taken) {comma' : Bool}
    (flag : c.workActions comma t g = [.take t] → comma' = decide (t.kind = .comma)) :
    Reads comma (g :: c.goals) w ↔ (∀ a ∈ c.workActions comma t g, a.loud = false) ∧
      Reads comma' (c.work comma t g).goals (w.drop ((c.work comma t g).taken - c.taken)) := by
  by_cases body : g = .enumBody
  · subst body
    refine reads_enumBody sight fun curl => ?_
    rw [flag (by simp [workActions, openBraceActions, curl]), curl]
    rfl
  by_cases symbols : g = .enumSymbols
  · subst symbols
    exact reads_enumSymbols sight meets
  by_cases head : c.goals.head? = some .enumSymbols
  · obtain rfl := meets.symbols.mp head
    obtain ⟨rest, goals⟩ : ∃ rest, c.goals = .enumSymbols :: rest := by
      cases goals : c.goals with
      | nil => simp [goals] at head
      | cons g rest => exact ⟨rest, by simpa [goals] using head⟩
    refine reads_enumSeparator sight goals meets fun is => ?_
    rw [flag (by simp [workActions, is]), is]
    rfl
  · have left : (g :: c.goals).head? ≠ some .enumSymbols := by simpa using symbols
    rw [reads_eq left, reads_eq (head_work head body symbols)]
    exact works sight meets more body symbols fun separator => head (meets.symbols.mpr separator)

end Control

end AvroIdl
