import AvroIdl.Parser.Step
import Mathlib.Tactic.Tauto

/-!
# The grammar

The language as rules over tokens, apart from how they are read. A `Rule` is an expression over
tokens and named parts, `Nonterminal.rule` is the table of the grammar, and `Derives` says which
sequences of tokens a rule stands for.

A sequence of rules that is matched against tokens from left to right is handled by `Matches`, with
one law for each kind of rule that can come first. Which tokens come first is computed by
`Rule.starts` and `Rule.nullable`.
-/

namespace AvroIdl

namespace Grammar

/-- The named parts of the language. -/
inductive Nonterminal where
  | document
  | item
  | protocol
  | protocolItem
  | record
  | field
  | variableDecl
  | enum
  | fixed
  | message
  | importStmt
  | type
  | annotationDecl
  | json
  | member
  deriving DecidableEq

/-- What can stand somewhere. -/
inductive Rule where
  /-- One token. -/
  | token (p : Token → Bool)
  /-- Nothing. -/
  | empty
  /-- One thing after the other. -/
  | seq (a b : Rule)
  /-- One thing or the other. -/
  | alt (a b : Rule)
  /-- Any number of things. -/
  | star (a : Rule)
  | part (n : Nonterminal)

namespace Rule

/-- One thing after the other. -/
def sequence (rules : List Rule) : Rule := rules.foldr seq empty

/-- One of several things. -/
def oneOf (first : Rule) : List Rule → Rule
  | [] => first
  | r :: rest => alt first (oneOf r rest)

/-- Something that can be missing. -/
def opt (a : Rule) : Rule := alt a empty

def keyword (k : Keyword) : Rule := token fun t => t.is k

/-- A token of one kind. -/
def mark (kind : TokenKind) : Rule := token fun t => t.kind = kind

/-- A declared name, for which every word serves. -/
def name : Rule := token fun t => t.kind = .ident || t.kind = .keyword

/-- A word that can be the first symbol of an enum. -/
def firstSymbol : Rule :=
  token fun t => (t.kind = .ident || t.kind = .keyword) && !t.beginsDeclaration

/-- More items of a list separated by commas. -/
def moreOf (a : Rule) : Rule := star (seq (mark .comma) a)

/-- Items separated by commas. -/
def list (a : Rule) : Rule := seq a (moreOf a)

/-- More items of a list separated by commas, where a comma may follow the last. -/
def restOf (a : Rule) : Rule := seq (moreOf a) (opt (mark .comma))

/-- A list of items separated by commas that can be empty. A comma may follow the last. -/
def closedList (a : Rule) : Rule := opt (seq a (restOf a))

/-- Annotations before a declaration, a type or a variable. -/
def annotations : Rule := star (part .annotationDecl)

/-- A parameter of a message. -/
def parameter : Rule := seq (part .type) (part .variableDecl)

/-- The symbols of an enum. -/
def symbols : Rule := opt (seq firstSymbol (restOf name))

/-- The default symbol of an enum. -/
def enumDefault : Rule := opt (sequence [mark .eq, name, mark .semi])

/-- What can follow the parameters of a message. -/
def messageEnd : Rule :=
  opt (alt (keyword .oneway) (seq (keyword .throws) (list (mark .ident))))

/-- A type without its annotations, and without a question mark. -/
def typeBody : Rule :=
  oneOf (mark .ident)
    [keyword .null,
      sequence [keyword .array, mark .lt, part .type, mark .gt],
      sequence [keyword .map, mark .lt, part .type, mark .gt],
      sequence [keyword .union, mark .openCurl, closedList (part .type), mark .closeCurl],
      sequence [keyword .decimal, mark .openParen, mark .intLit, mark .comma, mark .intLit,
        mark .closeParen]]

/-- A JSON value that is one token. -/
def literal : Rule :=
  oneOf (mark .stringLit) [mark .intLit, mark .floatLit, mark .boolLit, keyword .null]

end Rule

open Rule in
/-- The grammar. -/
def Nonterminal.rule : Nonterminal → Rule
  | document => star (part item)
  | item =>
    oneOf (part importStmt)
      [sequence [keyword .nameSpace, name, mark .semi],
        sequence [keyword .schema, part type, mark .semi],
        seq annotations (oneOf (part protocol) [part record, part enum, part fixed])]
  | protocol =>
    sequence [keyword .protocol, name, mark .openCurl, star (part protocolItem), mark .closeCurl]
  | protocolItem =>
    alt (part importStmt)
      (seq annotations (oneOf (part record) [part enum, part fixed, part message]))
  | record =>
    sequence [alt (keyword .record) (keyword .error), name, mark .openCurl, star (part field),
      mark .closeCurl]
  | field => sequence [part type, list (part variableDecl), mark .semi]
  | variableDecl => sequence [annotations, name, opt (seq (mark .eq) (part json))]
  | enum =>
    sequence [keyword .enum, name, mark .openCurl, symbols, mark .closeCurl, enumDefault]
  | fixed =>
    sequence [keyword .fixed, name, mark .openParen, mark .intLit, mark .closeParen, mark .semi]
  | message =>
    sequence [alt (part type) (keyword .void), name, mark .openParen, closedList parameter,
      mark .closeParen, messageEnd, mark .semi]
  | importStmt =>
    sequence [keyword .importing, oneOf (keyword .idl) [keyword .protocol, keyword .schema],
      mark .stringLit, mark .semi]
  | type => sequence [annotations, typeBody, opt (mark .question)]
  | annotationDecl =>
    sequence [mark .atSign, name, mark .openParen, part json, mark .closeParen]
  | json =>
    oneOf literal
      [sequence [mark .openCurl, closedList (part member), mark .closeCurl],
        sequence [mark .openSquare, closedList (part json), mark .closeSquare]]
  | member => sequence [mark .stringLit, mark .colon, part json]

/-- The tokens that a rule stands for. -/
inductive Derives : Rule → List Token → Prop
  | token {p : Token → Bool} {t : Token} (h : p t) : Derives (.token p) [t]
  | empty : Derives .empty []
  | seq {a b : Rule} {u v : List Token} (ha : Derives a u) (hb : Derives b v) :
    Derives (.seq a b) (u ++ v)
  | left {a b : Rule} {u : List Token} (h : Derives a u) : Derives (.alt a b) u
  | right {a b : Rule} {u : List Token} (h : Derives b u) : Derives (.alt a b) u
  | nil {a : Rule} : Derives (.star a) []
  | cons {a : Rule} {u v : List Token} (ha : Derives a u) (hv : Derives (.star a) v) :
    Derives (.star a) (u ++ v)
  | part {n : Nonterminal} {u : List Token} (h : Derives n.rule u) : Derives (.part n) u

/-- Tokens that can be divided among rules, one after the other. -/
def Matches (rules : List Rule) (w : List Token) : Prop := Derives (.sequence rules) w

section

variable {rules : List Rule} {w : List Token}

@[simp] theorem matches_nil : Matches [] w ↔ w = [] := by
  constructor
  · intro h
    cases h
    rfl
  · rintro rfl
    exact .empty

theorem matches_cons {a : Rule} :
    Matches (a :: rules) w ↔ ∃ u v, Derives a u ∧ Matches rules v ∧ w = u ++ v := by
  constructor
  · intro h
    cases h with
    | seq ha hb => exact ⟨_, _, ha, hb, rfl⟩
  · rintro ⟨u, v, ha, hb, rfl⟩
    exact .seq ha hb

theorem matches_append {others : List Rule} :
    Matches (rules ++ others) w ↔ ∃ u v, Matches rules u ∧ Matches others v ∧ w = u ++ v := by
  induction rules generalizing w with
  | nil => simp
  | cons a rules ih =>
    simp only [List.cons_append, matches_cons, ih]
    constructor
    · rintro ⟨u, _, ha, ⟨v, x, hv, hx, rfl⟩, rfl⟩
      exact ⟨u ++ v, x, ⟨u, v, ha, hv, rfl⟩, hx, by simp⟩
    · rintro ⟨_, x, ⟨u, v, ha, hv, rfl⟩, hx, rfl⟩
      exact ⟨u, v ++ x, ha, ⟨v, x, hv, hx, rfl⟩, by simp⟩

/-- Rules that match the same can follow another rule. -/
theorem matches_congr {a : Rule} {others : List Rule} (h : ∀ v, Matches rules v ↔ Matches others v) :
    Matches (a :: rules) w ↔ Matches (a :: others) w := by
  simp only [matches_cons, h]

theorem Matches.imp {a : Rule} {others : List Rule} (h : Matches (a :: rules) w)
    (imp : ∀ v, Matches rules v → Matches others v) : Matches (a :: others) w := by
  obtain ⟨u, v, ha, hv, rfl⟩ := matches_cons.mp h
  exact matches_cons.mpr ⟨u, v, ha, imp v hv, rfl⟩

@[simp] theorem not_matches_token_nil {p : Token → Bool} : ¬ Matches (.token p :: rules) [] := by
  rw [matches_cons]
  rintro ⟨u, v, ha, -, eq⟩
  cases ha
  simp at eq

@[simp] theorem matches_token_cons {p : Token → Bool} {t : Token} :
    Matches (.token p :: rules) (t :: w) ↔ p t ∧ Matches rules w := by
  rw [matches_cons]
  constructor
  · rintro ⟨u, v, ha, hv, eq⟩
    cases ha with
    | token h =>
      obtain ⟨rfl, rfl⟩ := List.cons.inj eq
      exact ⟨h, hv⟩
  · rintro ⟨h, hw⟩
    exact ⟨[t], w, .token h, hw, rfl⟩

@[simp] theorem matches_empty : Matches (.empty :: rules) w ↔ Matches rules w := by
  rw [matches_cons]
  constructor
  · rintro ⟨u, v, ha, hv, rfl⟩
    cases ha
    exact hv
  · intro h
    exact ⟨[], w, .empty, h, rfl⟩

@[simp] theorem matches_seq {a b : Rule} :
    Matches (.seq a b :: rules) w ↔ Matches (a :: b :: rules) w := by
  simp only [matches_cons]
  constructor
  · rintro ⟨_, x, ha, hx, rfl⟩
    cases ha with
    | @seq a b u v ha hb => exact ⟨u, v ++ x, ha, ⟨v, x, hb, hx, rfl⟩, by simp⟩
  · rintro ⟨u, _, ha, ⟨v, x, hb, hx, rfl⟩, rfl⟩
    exact ⟨u ++ v, x, .seq ha hb, hx, by simp⟩

@[simp] theorem matches_alt {a b : Rule} :
    Matches (.alt a b :: rules) w ↔ Matches (a :: rules) w ∨ Matches (b :: rules) w := by
  simp only [matches_cons]
  constructor
  · rintro ⟨u, v, ha, hv, rfl⟩
    cases ha with
    | left h => exact .inl ⟨u, v, h, hv, rfl⟩
    | right h => exact .inr ⟨u, v, h, hv, rfl⟩
  · rintro (⟨u, v, h, hv, rfl⟩ | ⟨u, v, h, hv, rfl⟩)
    · exact ⟨u, v, .left h, hv, rfl⟩
    · exact ⟨u, v, .right h, hv, rfl⟩

theorem matches_star {a : Rule} :
    Matches (.star a :: rules) w ↔ Matches rules w ∨ Matches (a :: .star a :: rules) w := by
  simp only [matches_cons]
  constructor
  · rintro ⟨_, x, ha, hx, rfl⟩
    cases ha with
    | nil => exact .inl hx
    | @cons a u v ha hv => exact .inr ⟨u, v ++ x, ha, ⟨v, x, hv, hx, rfl⟩, by simp⟩
  · rintro (h | ⟨u, _, ha, ⟨v, x, hv, hx, rfl⟩, rfl⟩)
    · exact ⟨[], w, .nil, h, rfl⟩
    · exact ⟨u ++ v, x, .cons ha hv, hx, by simp⟩

theorem matches_part {n : Nonterminal} :
    Matches (.part n :: rules) w ↔ Matches (n.rule :: rules) w := by
  simp only [matches_cons]
  constructor
  · rintro ⟨u, v, ha, hv, rfl⟩
    cases ha with
    | part h => exact ⟨u, v, h, hv, rfl⟩
  · rintro ⟨u, v, h, hv, rfl⟩
    exact ⟨u, v, .part h, hv, rfl⟩

@[simp] theorem matches_sequence {first : List Rule} :
    Matches (.sequence first :: rules) w ↔ Matches (first ++ rules) w := by
  rw [matches_append, matches_cons]
  rfl

@[simp] theorem matches_oneOf_nil {a : Rule} :
    Matches (.oneOf a [] :: rules) w ↔ Matches (a :: rules) w := Iff.rfl

@[simp] theorem matches_oneOf_cons {a b : Rule} {others : List Rule} :
    Matches (.oneOf a (b :: others) :: rules) w ↔
      Matches (a :: rules) w ∨ Matches (.oneOf b others :: rules) w := by
  rw [Rule.oneOf, matches_alt]

@[simp] theorem matches_opt {a : Rule} :
    Matches (.opt a :: rules) w ↔ Matches (a :: rules) w ∨ Matches rules w := by
  rw [Rule.opt, matches_alt, matches_empty]

/-- After an item of a list there can be a comma, after which the list may go on. -/
theorem matches_restOf {a : Rule} :
    Matches (.restOf a :: rules) w ↔
      Matches rules w ∨ Matches (.mark .comma :: .closedList a :: rules) w := by
  have unfold_rest : ∀ v, Matches (.restOf a :: rules) v ↔
      Matches (.moreOf a :: .opt (.mark .comma) :: rules) v := fun v => matches_seq
  rw [unfold_rest, Rule.moreOf, matches_star, matches_opt]
  cases w with
  | nil => simp [Rule.mark]
  | cons t w =>
    simp only [matches_seq, Rule.mark, matches_token_cons, Rule.closedList, matches_opt,
      matches_congr unfold_rest, Rule.moreOf]
    tauto

theorem matches_closedList {a : Rule} :
    Matches (.closedList a :: rules) w ↔ Matches (a :: .restOf a :: rules) w ∨ Matches rules w := by
  rw [Rule.closedList, matches_opt, matches_seq]

theorem matches_annotations :
    Matches (.annotations :: rules) w ↔
      Matches rules w ∨ Matches (.part .annotationDecl :: .annotations :: rules) w := matches_star

theorem matches_moreOf {a : Rule} :
    Matches (.moreOf a :: rules) w ↔
      Matches rules w ∨ Matches (.mark .comma :: .list a :: rules) w := by
  rw [Rule.moreOf, matches_star, Rule.list]
  cases w with
  | nil => simp [Rule.mark]
  | cons t w => simp only [matches_seq, Rule.mark, matches_token_cons, Rule.moreOf]

end

/-! ## First tokens -/

/-- Whether a token can begin a part. -/
def Nonterminal.starts (t : Token) : Nonterminal → Bool
  | document | item => t.kind = .atSign || t.beginsDeclaration
  | protocol => t.is .protocol
  | protocolItem => t.is .importing || t.beginsType || t.is .void || t.beginsNamedType
  | record => t.is .record || t.is .error
  | field | type => t.beginsType
  | variableDecl => t.kind = .atSign || t.isName
  | enum => t.is .enum
  | fixed => t.is .fixed
  | message => t.beginsType || t.is .void
  | importStmt => t.is .importing
  | annotationDecl => t.kind = .atSign
  | json => t.kind = .openCurl || t.kind = .openSquare || t.isJsonLiteral
  | member => t.kind = .stringLit

namespace Rule

/-- Whether a rule can stand for nothing. -/
def nullable : Rule → Bool
  | token _ => false
  | empty | star _ => true
  | seq a b => a.nullable && b.nullable
  | alt a b => a.nullable || b.nullable
  | part n => n = .document

/-- Whether a token can begin what a rule stands for. -/
def starts (t : Token) : Rule → Bool
  | token p => p t
  | empty => false
  | seq a b => a.starts t || (a.nullable && b.starts t)
  | alt a b => a.starts t || b.starts t
  | star a => a.starts t
  | part n => n.starts t

end Rule

theorem nullable_of_derives {r : Rule} {w : List Token} (h : Derives r w) (nil : w = []) :
    r.nullable := by
  induction h with
  | token => contradiction
  | empty | nil | cons => rfl
  | seq _ _ iha ihb =>
    obtain ⟨rfl, rfl⟩ := List.append_eq_nil_iff.mp nil
    simp [Rule.nullable, iha rfl, ihb rfl]
  | left _ ih => simp [Rule.nullable, ih nil]
  | right _ ih => simp [Rule.nullable, ih nil]
  | @part n _ _ ih =>
    have rule := ih nil
    cases n <;> first | rfl | (revert rule; decide)

theorem starts_rule (n : Nonterminal) (t : Token) : n.rule.starts t → n.starts t := by
  intro h
  cases n <;>
    simp only [Nonterminal.rule, Rule.starts, Rule.sequence, Rule.oneOf, List.foldr, Rule.nullable,
      Rule.annotations, Rule.mark, Rule.keyword, Rule.name, Rule.literal, Rule.typeBody,
      Nonterminal.starts, Token.beginsDeclaration, Token.beginsType, Token.beginsNamedType,
      Token.isName, Token.isJsonLiteral] at h ⊢ <;>
    grind

theorem starts_of_derives {r : Rule} {w : List Token} (h : Derives r w) {t : Token}
    {v : List Token} (cons : w = t :: v) : r.starts t := by
  induction h generalizing v with
  | token h =>
    obtain ⟨rfl, -⟩ := List.cons.inj cons
    exact h
  | empty | nil => contradiction
  | @seq a b u u' ha hb iha ihb =>
    cases u with
    | nil => simp [Rule.starts, nullable_of_derives ha rfl, ihb cons]
    | cons t' u =>
      obtain ⟨rfl, -⟩ := List.cons.inj cons
      simp [Rule.starts, iha rfl]
  | left _ ih => simp [Rule.starts, ih cons]
  | right _ ih => simp [Rule.starts, ih cons]
  | @cons a u u' ha hv iha ihv =>
    cases u with
    | nil => exact ihv cons
    | cons t' u =>
      obtain ⟨rfl, -⟩ := List.cons.inj cons
      exact iha rfl
  | part _ ih => exact starts_rule _ _ (ih cons)

theorem starts_of_matches {rules : List Rule} {t : Token} {w : List Token}
    (h : Matches rules (t :: w)) : (Rule.sequence rules).starts t := starts_of_derives h rfl

theorem nullable_of_matches {rules : List Rule} (h : Matches rules []) :
    (Rule.sequence rules).nullable := nullable_of_derives h rfl

end Grammar

end AvroIdl
