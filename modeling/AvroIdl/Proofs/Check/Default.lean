import AvroIdl.Proofs.Check.Cycle
import AvroIdl.Proofs.Check.Duplicates
import AvroIdl.Proofs.Token.Integer
import AvroIdl.Proofs.Tree.Innermost

/-!
# Integers as default values

Which default values are reported. The check goes through all nodes of a tree, `Element.check_eq`, and
a report stands at the value that it is about, which is that of one field only:
`Tree.Default.eq_of_contains`. So a value is reported exactly if the type of its field does not accept it,
`CheckInput.reported_default`.

For integers this is not a question of their size alone: `CheckOptions.reported_integer`. Those with a
letter at their end and those in base sixteen are reported whatever they denote.
-/

namespace AvroIdl

/-! ## All nodes are checked -/

theorem Node.check_of_isPlain {n : Node} (plain : n.kind.isPlain = true) (meanings : Meanings) :
    n.check meanings = [] := by
  unfold check
  split <;> simp_all [NodeKind.isPlain]

namespace Element

mutual

/-- What is not looked into has no problems. -/
theorem check_eq {e : Element} (h : e.All Formed) (meanings : Meanings) (start : Nat) :
    e.check meanings start = (e.nodesFrom start).flatMap (·.check meanings) := by
  cases e with
  | leaf t => rfl
  | node l children =>
    have nothing (bare : l.kind.isBare = true) :
        [] = (nodesAmong start children).flatMap (·.check meanings) := by
      rw [eq_comm, List.flatMap_eq_nil_iff]
      exact fun n mem => Node.check_of_isPlain (isPlain_below h bare start n mem) meanings
    rw [check, nodesFrom, List.flatMap_cons]
    refine congrArg _ ?_
    split
    next kind => exact nothing (by rw [kind]; rfl)
    next kind => exact nothing (by rw [kind]; rfl)
    next kind => exact nothing (by rw [kind]; rfl)
    next => exact checkAll_eq h.2 meanings start

theorem checkAll_eq {es : List Element} (h : AllOf Formed es) (meanings : Meanings) (start : Nat) :
    checkAll meanings start es = (nodesAmong start es).flatMap (·.check meanings) := by
  cases es with
  | nil => rfl
  | cons e rest =>
    rw [checkAll, nodesAmong, List.flatMap_append, check_eq h.1, checkAll_eq h.2]

end

end Element

/-! ## Reports of default values -/

namespace Node

variable {n value : Node} {meanings : Meanings} {span : Span}

/-- The type of a field does not accept a value. -/
def Rejects (n : Node) (meanings : Meanings) (value : Node) : Prop :=
  ∃ type, n.typeChild? = some type ∧ type.hasError = false ∧ value.hasError = false ∧
    type.element.typeExpr.accepts meanings value.element.jsonTerm = false

theorem reported_checkDefaults : (∃ message, Reported (n.checkDefaults meanings) 3200 span message) ↔
    ∃ variableNode ∈ n.childrenOf .variableDecl, ∃ value, variableNode.jsonChild? = some value ∧
      value.span = span ∧ n.Rejects meanings value := by
  unfold checkDefaults
  cases typed : n.typeChild? with
  | none => simp [Reported, Rejects, typed]
  | some type =>
    by_cases bad : type.hasError = true
    · simp [Reported, Rejects, typed, bad]
    · simp only [if_neg bad, Reported, List.mem_filterMap]
      constructor
      · rintro ⟨message, d, ⟨variableNode, mem, made⟩, -, place, -⟩
        obtain ⟨value, found, made⟩ := Option.bind_eq_some_iff.mp made
        split_ifs at made with fine
        obtain rfl := Option.some.inj made
        rw [Bool.or_eq_true, not_or, Bool.not_eq_true, Bool.not_eq_true] at fine
        exact ⟨variableNode, mem, value, found, place, type, typed, by simpa using bad, fine⟩
      · rintro ⟨variableNode, mem, value, found, place, type', typed', -, clean, rejected⟩
        obtain rfl : type = type' := Option.some.inj (typed.symm.trans typed')
        refine ⟨_, Problem.invalidDefault type.element.typeExpr.render value.element.jsonTerm.render
          value.span, ⟨variableNode, mem, ?_⟩, rfl, place, rfl⟩
        have fine : ¬ (value.hasError ||
            type.element.typeExpr.accepts meanings value.element.jsonTerm) = true := by
          simp [clean, rejected]
        rw [found, Option.bind_eq_bind, Option.bind_some]
        exact if_neg fine

/-- Only fields and parameters have default values to be reported. -/
theorem reported_check : (∃ message, Reported (n.check meanings) 3200 span message) ↔
    (n.kind = .fieldDecl ∨ n.kind = .formalParam) ∧
      ∃ message, Reported (n.checkDefaults meanings) 3200 span message := by
  unfold check
  split
  next kind => simp [kind, n.coded_checkFields.not_reported]
  next kind => simp [kind, n.coded_checkFields.not_reported]
  next kind => simp [kind]
  next kind => simp [kind]
  next kind => simp [kind, n.coded_checkEnum.not_reported]
  next kind => simp [kind, n.coded_checkMessage.not_reported]
  next field param _ _ => exact iff_of_false (by simp [Reported]) fun h => h.1.elim field param

end Node

/-! ## One value at one place -/

theorem NodeKind.isPlain_of_isJson {k : NodeKind} (json : k.isJson = true) : k.isPlain = true := by
  revert json
  cases k <;> decide

namespace Node

variable {n c m : Node} {offset : Nat}

theorem mem_nodesFrom_of_child (child : c ∈ n.childNodes) : c ∈ n.element.nodesFrom n.start :=
  .tail _ (Element.mem_nodesAmong_of_placed (mem_childNodes.mp child))

theorem all_of_child {P : Label → List Element → Prop} (h : n.element.All P)
    (child : c ∈ n.childNodes) : c.element.All P :=
  Element.all_of_mem_nodesFrom h (mem_nodesFrom_of_child child)

theorem Contains.of_child (h : n.element.All Element.Measured) (child : c ∈ n.childNodes)
    (inside : c.Contains offset) : n.Contains offset := by
  have bounds := Element.bounds_of_mem_nodesFrom h (mem_nodesFrom_of_child child)
  exact ⟨Nat.le_trans bounds.1 inside.1, Nat.lt_of_lt_of_le inside.2 bounds.2⟩

/-- What is below a node and around an offset is the node itself, or below its child there. -/
theorem eq_or_mem_of_contains (h : n.element.All Element.Measured) (child : c ∈ n.childNodes)
    (inside : c.Contains offset) (below : m ∈ n.element.nodesFrom n.start)
    (around : m.Contains offset) : m = n ∨ m ∈ c.element.nodesFrom c.start := by
  refine (List.mem_cons.mp below).imp_right fun below => ?_
  exact Element.mem_nodesFrom_of_placed h.2 (mem_childNodes.mp child) inside below around

end Node

namespace Tree

/-- A value is the default of a variable of a field or parameter. -/
structure Default (t : Tree) (field variableNode value : Node) : Prop where
  mem : field ∈ t.element.nodesFrom 0
  kind : field.kind = .fieldDecl ∨ field.kind = .formalParam
  declares : variableNode ∈ field.childrenOf .variableDecl
  gives : variableNode.jsonChild? = some value

namespace Default

variable {t : Tree} {field field' variableNode variableNode' value value' : Node} {offset : Nat}

theorem variable_mem (h : t.Default field variableNode value) :
    variableNode ∈ field.childNodes ∧ variableNode.kind = .variableDecl := by
  simpa [Node.childrenOf] using h.declares

theorem value_mem (h : t.Default field variableNode value) :
    value ∈ variableNode.childNodes ∧ value.kind.isJson = true :=
  ⟨List.mem_of_find?_eq_some h.gives, by simpa using List.find?_some h.gives⟩

theorem contains (h : t.Default field variableNode value) (measured : t.element.All Element.Measured)
    (inside : value.Contains offset) : field.Contains offset ∧ variableNode.Contains offset := by
  have wide := Element.all_of_mem_nodesFrom measured h.mem
  have inside := inside.of_child (Node.all_of_child wide h.variable_mem.1) h.value_mem.1
  exact ⟨inside.of_child wide h.variable_mem.1, inside⟩

variable (measured : t.element.All Element.Measured) (formed : t.element.All Element.Formed)

include measured formed

/-- Around a default value there are its variable and its field, and no other declaration. -/
theorem around (h : t.Default field variableNode value) {m : Node}
    (below : m ∈ field.element.nodesFrom field.start) (inside : value.Contains offset)
    (around : m.Contains offset) :
    m = field ∨ m = variableNode ∨ m.kind.isPlain = true := by
  have wide := Element.all_of_mem_nodesFrom measured h.mem
  have form := Node.all_of_child
    (Node.all_of_child (Element.all_of_mem_nodesFrom formed h.mem) h.variable_mem.1) h.value_mem.1
  have json := NodeKind.isPlain_of_isJson h.value_mem.2
  rcases Node.eq_or_mem_of_contains wide h.variable_mem.1 (h.contains measured inside).2 below around
    with same | below
  · exact .inl same
  · rcases Node.eq_or_mem_of_contains (Node.all_of_child wide h.variable_mem.1) h.value_mem.1 inside
      below around with same | below
    · exact .inr (.inl same)
    · rcases List.mem_cons.mp below with rfl | below
      · exact .inr (.inr json)
      · exact .inr (.inr (Element.isPlain_below form (NodeKind.isBare_of_isPlain json) _ m below))

theorem eq_field (h : t.Default field variableNode value) {m : Node}
    (below : m ∈ field.element.nodesFrom field.start)
    (kind : m.kind = .fieldDecl ∨ m.kind = .formalParam) (inside : value.Contains offset)
    (around : m.Contains offset) : m = field := by
  rcases h.around measured formed below inside around with same | rfl | plain
  · exact same
  · rcases kind with kind | kind <;> rw [h.variable_mem.2] at kind <;> contradiction
  · rcases kind with kind | kind <;> rw [kind] at plain <;> contradiction

/-- At one place there is one default value, of one field. -/
theorem eq_of_contains (h : t.Default field variableNode value)
    (h' : t.Default field' variableNode' value') (inside : value.Contains offset)
    (inside' : value'.Contains offset) : field' = field ∧ value' = value := by
  obtain ⟨around, -⟩ := h.contains measured inside
  obtain ⟨around', within'⟩ := h'.contains measured inside'
  obtain rfl : field' = field := by
    rcases Element.nested_of_contains measured h'.mem h.mem around' around with below | below
    · exact h.eq_field measured formed below h'.kind inside around'
    · exact (h'.eq_field measured formed below h.kind inside' around).symm
  have kind := h'.variable_mem.2
  obtain rfl : variableNode' = variableNode := by
    have below := Node.mem_nodesFrom_of_child h'.variable_mem.1
    rcases h.around measured formed below inside within' with rfl | same | plain
    · rcases h.kind with other | other <;> rw [kind] at other <;> contradiction
    · exact same
    · rw [kind] at plain
      contradiction
  exact ⟨rfl, Option.some.inj (h'.gives.symm.trans h.gives)⟩

end Default

end Tree

namespace CheckInput

variable {i : CheckInput} {tree : Tree} {field variableNode value : Node}

/-- What the references of a document mean, by the numbers of their nodes. -/
def nodeMeanings (i : CheckInput) : Meanings := (i.own.references.map (·.node)).zip i.meanings

theorem meanings_eq (unknown : i.results = []) : i.meanings = i.scope.resolveAll := by
  rw [meanings, unknown]
  split_ifs with none
  · rw [eq_comm, Scope.resolveAll, List.map_eq_nil_iff]
    exact List.length_eq_zero_iff.mp none.symm
  · rfl

/-- No other check reports default values. -/
theorem reported_tree (indexed : i.own.Indexed) {span : Span} {message : Bytes} :
    Reported i.problems 3200 span message ↔ Reported i.checkTree 3200 span message := by
  have index : ¬ Reported i.own.diagnostics 3200 span message :=
    indexed.coded.not_reported (by decide) _ _
  have imports : ¬ Reported i.checkImports 3200 span message :=
    i.coded_checkImports.not_reported (by decide) _ _
  have cycle : ¬ Reported i.checkCycle 3200 span message :=
    i.coded_checkCycle.not_reported (by decide) _ _
  have types : ¬ Reported i.checkOwnDuplicates 3200 span message :=
    i.coded_checkOwnDuplicates.not_reported (by decide) _ _
  have names : ¬ Reported i.checkImportedDuplicates 3200 span message :=
    i.coded_checkImportedDuplicates.not_reported (by decide) _ _
  have references : ¬ Reported i.checkReferences 3200 span message :=
    i.coded_checkReferences.not_reported (by decide) _ _
  simp only [problems, reported_append, index, imports, cycle, types, names, references, false_or]

/-- A default value is reported exactly if the type of its field does not accept it. -/
theorem reported_default (indexed : i.own.Indexed) (own : i.own.tree = some tree)
    (measured : tree.element.All Element.Measured) (formed : tree.element.All Element.Formed)
    (h : tree.Default field variableNode value) (wide : 0 < value.label.width) :
    (∃ message, Reported i.problems 3200 value.span message) ↔
      field.Rejects i.nodeMeanings value := by
  have checked : i.checkTree = (tree.element.nodesFrom 0).flatMap (·.check i.nodeMeanings) := by
    rw [checkTree, own]
    exact Element.check_eq formed _ 0
  simp only [reported_tree indexed, checked]
  constructor
  · rintro ⟨message, d, mem, here⟩
    obtain ⟨n, inside, mem⟩ := List.mem_flatMap.mp mem
    obtain ⟨kind, report⟩ := Node.reported_check.mp ⟨message, d, mem, here⟩
    obtain ⟨v, declares, w, gives, place, rejects⟩ := Node.reported_checkDefaults.mp report
    have first : value.Contains value.start := ⟨Nat.le_refl _, by omega⟩
    have first' : w.Contains value.start := by
      obtain ⟨start, width⟩ := Span.mk.inj place
      rwa [Node.Contains, start, width]
    obtain ⟨rfl, rfl⟩ := h.eq_of_contains measured formed ⟨inside, kind, declares, gives⟩ first first'
    exact rejects
  · intro rejects
    obtain ⟨message, d, mem, here⟩ := Node.reported_check.mpr ⟨h.kind,
      Node.reported_checkDefaults.mpr ⟨_, h.declares, _, h.gives, rfl, rejects⟩⟩
    exact ⟨message, d, List.mem_flatMap.mpr ⟨_, h.mem, mem⟩, here⟩

end CheckInput

/-! ## Built-in types -/

/-- A name of a built-in type means that type, whatever is in scope. -/
theorem Reference.resolve_of_underlying {r : Reference} {primitive : Bytes}
    (h : Primitive.underlying? r.name = some primitive) (scope : Scope) :
    r.resolve scope = .primitive r.name := by
  have plain : ∀ p ∈ Primitive.all, Name.isQualified p.1 = false := by decide
  obtain ⟨before, after, split, -⟩ := List.lookup_eq_some_iff.mp h
  have simple : r.isQualified = false := plain (r.name, primitive) (by rw [split]; simp)
  rw [resolve, if_pos]
  rw [simple, Primitive.isPrimitive, h]
  rfl

namespace CheckInput

variable {i : CheckInput} {serial : Nat} {uri : Bytes} {tree : Tree}

/-- Every node that refers to a type has a meaning. -/
theorem lookup_nodeMeanings (lossless : tree.Lossless) (shaped : tree.Shaped)
    (own : i.own = .ofTree serial uri tree) (known : i.meanings = i.scope.resolveAll) {type : Node}
    (mem : type ∈ tree.element.nodesFrom 0) (kind : type.kind = .typeRef) :
    ∃ r : Reference, r.Of type ∧ i.nodeMeanings.lookup type.id = some (r.resolve i.scope) := by
  have of : List.Forall₂ Reference.Of i.own.references
      ((tree.element.nodesFrom 0).filter fun n => n.kind = .typeRef) := by
    have root : tree.root.kind ≠ .typeRef := by
      rw [show tree.root.kind = .document from shaped.root]
      simp
    rw [own, show tree.element.nodesFrom 0 = tree.root :: Element.nodesAmong 0 tree.children from rfl,
      List.filter_cons_of_neg (by simp [root])]
    exact Element.referencesAmong_of shaped.nodes.2 0 _ false
  have nodes : i.own.references.map Reference.node =
      ((tree.element.nodesFrom 0).filter fun n => n.kind = .typeRef).map Node.id := by
    have pairs := List.forall₂_map_left_iff.mpr
      (List.forall₂_map_right_iff.mpr (of.imp fun _ _ here => here.node))
    rwa [List.forall₂_eq_eq_eq] at pairs
  have distinct : (i.own.references.map Reference.node).Nodup := by
    rw [nodes]
    refine (List.filter_sublist.map Node.id).nodup ?_
    rw [Element.map_id_nodesFrom]
    exact lossless.nodup
  have listed : i.nodeMeanings = i.own.references.map fun r => (r.node, r.resolve i.scope) := by
    rw [nodeMeanings, known, Scope.resolveAll]
    exact List.zip_map' ..
  obtain ⟨r, there, here⟩ := exists_of_forall₂ of.flip (List.mem_filter.mpr ⟨mem, by simpa using kind⟩)
  refine ⟨r, here, ?_⟩
  obtain ⟨before, after, split⟩ := List.append_of_mem there
  rw [split, List.map_append, List.map_cons, List.nodup_middle, List.nodup_cons] at distinct
  rw [listed, split, List.lookup_eq_some_iff]
  refine ⟨before.map fun r => (r.node, r.resolve i.scope), after.map fun r => (r.node, r.resolve i.scope),
    by simp [here.node], fun p mem => ?_⟩
  obtain ⟨q, earlier, rfl⟩ := List.mem_map.mp mem
  have other : r.node ≠ q.node := fun same =>
    distinct.1 (List.mem_append_left _ (List.mem_map.mpr ⟨q, earlier, same.symm⟩))
  simpa [here.node] using other

end CheckInput

/-! ## Integers -/

namespace Element

theorem not_isLiteralKind {k : TokenKind} (trivia : k.isTrivia = true) :
    ¬ isLiteralKind k = true := by
  revert trivia
  cases k <;> decide

/-- The literal in a value is its first token that is neither a space nor a comment. -/
theorem literalAmong_eq {start : Nat} {label : Label} {es : List Element} {l : Leaf}
    (found : (Node.leaves ⟨start, label, es⟩).find? (fun l => !l.kind.isTrivia) = some l)
    (literal : isLiteralKind l.kind = true) : literalAmong es = .literal l.kind l.text := by
  simp only [Node.leaves, Node.parts] at found
  induction es generalizing start with
  | nil => contradiction
  | cons e rest ih =>
    cases e with
    | node l' children => exact ih found
    | leaf t =>
      rw [placed, List.filterMap_cons, List.find?_cons] at found
      dsimp only [Leaf.kind] at found
      rw [literalAmong]
      cases trivia : t.kind.isTrivia with
      | false =>
        simp only [trivia, Bool.not_false, Option.some.injEq] at found
        subst found
        exact if_pos literal
      | true =>
        simp only [trivia, Bool.not_true] at found
        rw [if_neg (not_isLiteralKind trivia)]
        exact ih found

end Element

namespace Primitive

/-- A built-in type is stored as a signed word of so many bits. -/
def IsWord (name : Bytes) (bits : Nat) : Prop :=
  underlying? name = some "int" ∧ bits = 32 ∨ underlying? name = some "long" ∧ bits = 64

theorem IsWord.fitsResolution_eq {name : Bytes} {bits : Nat} (h : IsWord name bits) (v : JsonTerm) :
    v.fitsResolution (.primitive name) = v.isInteger bits := by
  rcases h with ⟨stored, rfl⟩ | ⟨stored, rfl⟩ <;> rw [JsonTerm.fitsResolution, stored] <;> rfl

end Primitive

namespace Node

/-- The type of a field is a built-in one, stored as a signed word of so many bits. -/
def OfWord (n : Node) (bits : Nat) : Prop :=
  ∃ type name, n.typeChild? = some type ∧ type.kind = .typeRef ∧ type.hasError = false ∧
    type.name? = some name ∧ Primitive.IsWord (identText name.text) bits

/-- A value is an integer literal. -/
structure IsInteger (value : Node) (literal : Leaf) : Prop where
  kind : value.kind = .jsonLiteral
  clean : value.hasError = false
  leaf : value.leaves.find? (fun l => !l.kind.isTrivia) = some literal
  integer : literal.kind = .intLit

namespace IsInteger

variable {value : Node} {literal : Leaf}

theorem jsonTerm_eq (h : value.IsInteger literal) :
    value.element.jsonTerm = .literal .intLit literal.text := by
  obtain ⟨start, l, children⟩ := value
  rw [Node.element, Element.jsonTerm, show l.kind = .jsonLiteral from h.kind]
  dsimp only
  rw [Element.literalAmong_eq h.leaf (by rw [h.integer]; rfl), h.integer]

/-- The literal is a token in the value. -/
theorem mem (h : value.IsInteger literal) (measured : value.element.All Element.Measured) :
    literal.token ∈ value.element.tokens ∧ literal.text.length ≤ value.label.width := by
  have part : .leaf literal ∈ value.parts := by
    obtain ⟨part, mem, eq⟩ := List.mem_filterMap.mp (List.mem_of_find?_eq_some h.leaf)
    cases part with
    | node c => contradiction
    | leaf l => rwa [← Option.some.inj eq]
  obtain ⟨k, placed⟩ := List.getElem?_of_mem part
  have below : (literal, [value]) ∈ value.element.leafPaths value.start [] :=
    Element.mem_leafPathsAll_of_placed placed [value]
  constructor
  · have located : literal ∈ Leaf.located value.start value.element.tokens := by
      rw [← Element.leafPaths_eq measured value.start []]
      exact List.mem_map_of_mem below
    obtain ⟨before, after, all, -⟩ := Leaf.split_of_mem located
    simp [all]
  · have bounds := Element.bounds_of_mem measured below
    dsimp only [Node.element, Element.width] at bounds
    omega

end IsInteger

end Node

namespace CheckInput

variable {i : CheckInput} {serial : Nat} {uri : Bytes} {tree : Tree}

/-- The types of signed words accept the integers that can be read and are not too large. -/
theorem rejects_iff (lossless : tree.Lossless) (shaped : tree.Shaped)
    (own : i.own = .ofTree serial uri tree) (known : i.meanings = i.scope.resolveAll)
    {field value : Node} (mem : field ∈ tree.element.nodesFrom 0) {bits : Nat} {literal : Leaf}
    (word : field.OfWord bits) (written : value.IsInteger literal) :
    field.Rejects i.nodeMeanings value ↔
      ¬ (Bytes.integer? literal.text).any (fitsSigned bits) = true := by
  obtain ⟨type, name, typed, kind, clean, named, stored⟩ := word
  have inside : type ∈ tree.element.nodesFrom 0 := Element.nodesFrom_trans mem
    (Node.mem_nodesFrom_of_child (List.mem_of_find?_eq_some typed))
  obtain ⟨r, ⟨-, name', named', spelled, -⟩, meaning⟩ :=
    lookup_nodeMeanings lossless shaped own known inside kind
  obtain rfl : name = name' := Option.some.inj (named.symm.trans named')
  have builtIn : r.resolve i.scope = .primitive r.name := by
    rcases stored with ⟨stored, -⟩ | ⟨stored, -⟩ <;> rw [← spelled] at stored <;>
      exact Reference.resolve_of_underlying stored _
  have accepts : type.element.typeExpr.accepts i.nodeMeanings value.element.jsonTerm =
      (Bytes.integer? literal.text).any (fitsSigned bits) := by
    rw [Node.element, Element.typeExpr, show type.label.kind = .typeRef from kind]
    dsimp only
    rw [TypeExpr.accepts, show type.label.id = type.id from rfl, meaning, builtIn, spelled,
      Option.all_some, stored.fitsResolution_eq, written.jsonTerm_eq, JsonTerm.isInteger]
  constructor
  · rintro ⟨type', typed', -, -, rejected⟩
    obtain rfl : type = type' := Option.some.inj (typed.symm.trans typed')
    rw [← accepts, rejected]
    simp
  · intro large
    exact ⟨type, typed, clean, written.clean, by rwa [accepts, ← Bool.not_eq_true]⟩

end CheckInput

/-- Every integer among tokens denotes one. -/
theorem Token.always_denotes :
    Always fun s => s.kind = .intLit → ∃ form n, IntegerForm.Denotes form s.text n := by
  refine ⟨fun text s mem integer => ?_, fun text _ integer => ?_⟩
  · obtain ⟨before, after, split⟩ := List.append_of_mem mem
    exact denotes_of_next (next?_of_mem split) integer
  · contradiction

/-- Whatever the text of a document is and however it was edited: an integer literal that is the
default value of a field whose type is stored as a signed word is reported exactly if it is not
written in plain decimal or if what it denotes does not fit into the word. -/
theorem CheckOptions.reported_integer (text : Bytes) (opts : ParseOptions) (steps : List Revision)
    (serial : Nat) (uri : Bytes) {i : CheckInput}
    (own : i.own = .ofTree serial uri ((Tree.parse text opts).revisions steps))
    (known : i.meanings = i.scope.resolveAll) (check : CheckOptions) (enabled : 3200 ∉ check.disabled)
    {field variableNode value : Node} {bits : Nat} {literal : Leaf} (kind : field.kind = .fieldDecl)
    (gives : ((Tree.parse text opts).revisions steps).Default field variableNode value)
    (word : field.OfWord bits) (written : value.IsInteger literal) :
    (∃ form n, IntegerForm.Denotes form literal.text n) ∧
      ∀ form n, IntegerForm.Denotes form literal.text n →
        ((∃ message, Reported (check.check i) 3200 value.span message) ↔
          form ≠ .decimal ∨ n < -2 ^ (bits - 1) ∨ 2 ^ (bits - 1) ≤ n) := by
  have start : (Tree.parse text opts).Lossless := Tree.parseIn_lossless ..
  have lossless := (Tree.revisions_lossless start steps).1
  have shaped := Tree.revisions_shaped start (Tree.parse_formed text opts).shaped steps
  have tokens := Tree.revisions_tokens Token.always_denotes start
    (Tree.parse_tokens Token.always_denotes text opts) steps
  generalize (Tree.parse text opts).revisions steps = tree at own gives lossless shaped tokens
  have measured : tree.element.All Element.Measured := by
    refine lossless.measured.resolve_right fun long => ?_
    have alone : field.label.kind.standsAlone = false :=
      (Element.all_of_mem_nodesFrom long.2 gives.mem).1
    rw [show field.label.kind = .fieldDecl from kind] at alone
    contradiction
  have inside : value ∈ tree.element.nodesFrom 0 := Element.nodesFrom_trans gives.mem
    (Element.nodesFrom_trans (Node.mem_nodesFrom_of_child gives.variable_mem.1)
      (Node.mem_nodesFrom_of_child gives.value_mem.1))
  obtain ⟨token, wide⟩ := written.mem (Element.all_of_mem_nodesFrom measured inside)
  refine ⟨tokens literal.token (Element.tokens_of_mem_nodesFrom inside token) written.integer,
    fun form n denotes => ?_⟩
  have some : 0 < value.label.width :=
    Nat.lt_of_lt_of_le (List.length_pos_of_ne_nil denotes.ne_nil) wide
  have indexed : i.own.Indexed := own ▸ .tree serial uri tree
  have owned : i.own.tree = .some tree := own ▸ (Table.of_ofTree serial uri tree).tree
  simp only [reported_check enabled]
  rw [CheckInput.reported_default indexed owned measured shaped.nodes gives some,
    CheckInput.rejects_iff lossless shaped own known gives.mem word written, denotes.integer?_eq]
  by_cases plain : form = .decimal
  · simp only [plain, if_true, Option.any_some, fitsSigned_iff, ne_eq, not_true_eq_false, false_or]
    omega
  · simp [plain]

/-- The largest date, and then one more than that, are the default of the second variable. -/
def CheckInput.beyondDates : CheckInput :=
  { scope := { own := .ofTree 1 [] ((Tree.parse "record R \x7b date a, b = 2147483647; \x7d").revisions
    [.edit ⟨32, 1, "8"⟩ {}]) } }

theorem CheckOptions.reported_integer_beyondDates :
    let tree := (Tree.parse "record R \x7b date a, b = 2147483647; \x7d").revisions
      [.edit ⟨32, 1, "8"⟩ {}]
    ∃ field variableNode value literal, field.kind = .fieldDecl ∧
      tree.Default field variableNode value ∧ field.OfWord 32 ∧ value.IsInteger literal ∧
      IntegerForm.Denotes .decimal literal.text 2147483648 ∧ value.span = ⟨23, 10⟩ ∧
      ∃ message, Reported (({} : CheckOptions).check .beyondDates) 3200 value.span message := by
  intro tree
  have view : ((tree.element.nodesFrom 0)[2]?.bind fun f =>
      (f.childrenOf .variableDecl)[1]?.bind fun v => v.jsonChild?.bind fun w =>
      (w.leaves.find? fun l => !l.kind.isTrivia).bind fun l => f.typeChild?.bind fun t =>
      t.name?.map fun name => decide (f.kind = .fieldDecl ∧
        (t.kind = .typeRef ∧ t.hasError = false ∧ identText name.text = "date") ∧
        (w.kind = .jsonLiteral ∧ w.hasError = false ∧ w.span = ⟨23, 10⟩) ∧
        l.kind = .intLit ∧ l.text = "2147483648")) = some true := by decide +kernel
  simp only [Option.bind_eq_some_iff, Option.map_eq_some_iff, decide_eq_true_eq] at view
  obtain ⟨f, hf, v, hv, w, hw, l, hl, t, ht, name, named, kind, ⟨refers, clean, spelled⟩,
    ⟨literal, clean', place⟩, integer, text⟩ := view
  have gives : tree.Default f v w :=
    ⟨List.mem_of_getElem? hf, .inl kind, List.mem_of_getElem? hv, hw⟩
  have word : f.OfWord 32 := ⟨t, name, ht, refers, clean, named, .inl ⟨by rw [spelled]; decide, rfl⟩⟩
  have written : w.IsInteger l := ⟨literal, clean', hl, integer⟩
  have denotes : IntegerForm.Denotes .decimal l.text 2147483648 := by
    rw [text]
    exact .unsigned (n := 2147483648) (.decimal (by decide) (List.all_eq_true.mp (by decide)))
  refine ⟨f, v, w, l, kind, gives, word, written, denotes, place, ?_⟩
  have reported := (reported_integer "record R \x7b date a, b = 2147483647; \x7d" {}
    [.edit ⟨32, 1, "8"⟩ {}] 1 [] (i := .beyondDates) rfl (CheckInput.meanings_eq rfl) {} (by simp) kind
    gives word written).2
  exact (reported .decimal 2147483648 denotes).mpr (.inr (.inr (by decide)))

/-- A small `long` with the letter that says so, and a small `int` in base sixteen, are reported. -/
theorem CheckOptions.reported_smallIntegers :
    let tree := Tree.parse "record R \x7b long a = 5L; int b = -0x10; \x7d"
    let problems := ({} : CheckOptions).check { scope := { own := .ofTree 1 [] tree } }
    tree.diagnostics = [] ∧ IntegerForm.Denotes (.suffixed 0x4c) "5L" 5 ∧ fitsSigned 64 5 = true ∧
      Reported problems 3200 ⟨20, 2⟩ "Default value 5L is not a valid long" ∧
      IntegerForm.Denotes .hexadecimal "-0x10" (-16) ∧ fitsSigned 32 (-16) = true ∧
      Reported problems 3200 ⟨32, 5⟩ "Default value -0x10 is not a valid int" := by
  intro tree problems
  have reported {span : Span} {message : Bytes}
      (found : (CheckInput.problems { scope := { own := .ofTree 1 [] tree } }).any (fun d =>
        d.code = 3200 ∧ d.span = span ∧ d.message = message) = true) :
      Reported problems 3200 span message := by
    obtain ⟨d, mem, here⟩ := List.any_eq_true.mp found
    exact (reported_check (by simp) _).mpr ⟨d, mem, of_decide_eq_true here⟩
  have five : IntegerForm.Spells (.suffixed 0x4c) (("5" : Bytes) ++ [0x4c]) 5 :=
    .suffixed (by decide) (List.all_eq_true.mp (by decide)) (by decide)
  have sixteen : IntegerForm.Spells .hexadecimal "0x10" 16 :=
    .hexadecimal (.inl rfl) (by decide) (List.all_eq_true.mp (by decide))
  exact ⟨by decide +kernel, .unsigned five, by decide, reported (by decide +kernel), .negative sixteen,
    by decide, reported (by decide +kernel)⟩

end AvroIdl
