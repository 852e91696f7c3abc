import AvroIdl.Proofs.Refactor.Name
import AvroIdl.Proofs.Symbol.Table
import AvroIdl.Proofs.Tree.Place

/-!
# Names at their places

Every reference of a document stands at the leaf that names a type, `Element.references_at`, and every
symbol is declared at the leaf that names a declaration, `Table.symbols_at`. No leaf names both.
-/

namespace AvroIdl

theorem exists_of_forall₂ {α β : Type} {R : α → β → Prop} {as : List α} {bs : List β}
    (h : List.Forall₂ R as bs) {a : α} (mem : a ∈ as) : ∃ b ∈ bs, R a b := by
  induction h with
  | nil => contradiction
  | cons first rest ih =>
    rcases List.mem_cons.mp mem with rfl | mem
    · exact ⟨_, List.mem_cons_self, first⟩
    · obtain ⟨b, later, here⟩ := ih mem
      exact ⟨b, .tail _ later, here⟩

/-- A reference at the leaf that it is written at. -/
structure Reference.At (r : Reference) (p : Leaf × List Node) : Prop where
  written : ∃ n above, p.2 = n :: above ∧ n.kind = .typeRef ∧ n.name? = some p.1 ∧ n.id = r.node
  name : r.name = identText p.1.text
  span : r.span = p.1.span
  nameSpan : r.nameSpan = p.1.simpleNameSpan

namespace Element

mutual

/-- The references of an element stand at some of its leaves, in the same order. -/
theorem references_at (e : Element) (start : Nat) (space : Bytes) (errorsOnly : Bool)
    (above : List Node) :
    ∃ ps, ps.Sublist (e.leafPaths start above) ∧
      List.Forall₂ Reference.At (e.references start space errorsOnly) ps := by
  cases e with
  | leaf t => exact ⟨[], List.nil_sublist _, .nil⟩
  | node l children =>
    have among (space : Bytes) (errorsOnly : Bool) :=
      referencesAmong_at children start space errorsOnly (⟨start, l, children⟩ :: above)
    rw [references]
    split
    next => exact among _ _
    next => exact among _ _
    next => exact among _ _
    next => exact among _ _
    next kind =>
      cases found : Node.name? ⟨start, l, children⟩ with
      | none => exact ⟨[], List.nil_sublist _, .nil⟩
      | some name =>
        refine ⟨[(name, ⟨start, l, children⟩ :: above)], ?_, ?_⟩
        · exact List.singleton_sublist.mpr (Node.mem_of_name? found above)
        · exact .cons ⟨⟨_, above, rfl, kind, found, rfl⟩, rfl, rfl, rfl⟩ .nil
    next => exact ⟨[], List.nil_sublist _, .nil⟩
    next => exact ⟨[], List.nil_sublist _, .nil⟩
    next => exact ⟨[], List.nil_sublist _, .nil⟩
    next => exact ⟨[], List.nil_sublist _, .nil⟩
    next => exact among _ _

theorem referencesAmong_at (es : List Element) (start : Nat) (space : Bytes) (errorsOnly : Bool)
    (above : List Node) :
    ∃ ps, ps.Sublist (leafPathsAll start above es) ∧
      List.Forall₂ Reference.At (referencesAmong start space errorsOnly es) ps := by
  cases es with
  | nil => exact ⟨[], List.nil_sublist _, .nil⟩
  | cons e rest =>
    obtain ⟨ps, first, here⟩ := references_at e start space errorsOnly above
    obtain ⟨qs, others, there⟩ := referencesAmong_at rest (start + e.width) space errorsOnly above
    exact ⟨ps ++ qs, first.append others, List.rel_append here there⟩

end

end Element

/-- Whether a node declares a type or a protocol. -/
def NodeKind.declares : NodeKind → Bool
  | .protocolDecl | .recordDecl | .errorDecl | .enumDecl | .fixedDecl => true
  | _ => false

/-- A symbol at the leaf that it is declared at. -/
structure Symbol.At (s : Symbol) (p : Leaf × List Node) : Prop where
  declared : ∃ n above, p.2 = n :: above ∧ n.kind.declares = true ∧ n.name? = some p.1 ∧
    s.decl = some n.id
  simpleName : s.simpleName = Name.simple (identText p.1.text)
  nameSpan : s.nameSpan = p.1.simpleNameSpan

theorem Node.mem_childNodes {n c : Node} : c ∈ n.childNodes ↔ Part.node c ∈ n.parts := by
  rw [childNodes, List.mem_filterMap]
  constructor
  · rintro ⟨part, mem, eq⟩
    cases part with
    | leaf l => contradiction
    | node c' => rwa [← Option.some.inj eq]
  · intro mem
    exact ⟨_, mem, rfl⟩

theorem Node.declares_of_symbolKind? {n : Node} {kind : SymbolKind} (h : n.symbolKind? = some kind) :
    n.kind.declares = true := by
  unfold symbolKind? at h
  split at h <;> simp_all [NodeKind.declares]

theorem Node.nameText_eq {n : Node} {l : Leaf} (h : n.name? = some l) :
    n.nameText = identText l.text := by
  rw [nameText, h]
  rfl

namespace Table

/-- Every symbol is declared at one of some leaves. -/
def Placed (ps : List (Leaf × List Node)) (t : Table) : Prop :=
  ∀ s ∈ t.symbols, ∃ p ∈ ps, s.At p

variable {ps : List (Leaf × List Node)} {t : Table}

theorem Placed.add (h : t.Placed ps) {s : Symbol} {p : Leaf × List Node} (mem : p ∈ ps)
    (here : s.At p) : (t.add s).Placed ps := by
  intro s' declared
  rw [symbols_add, List.mem_append, List.mem_singleton] at declared
  rcases declared with declared | rfl
  · exact h s' declared
  · exact ⟨p, mem, here⟩

theorem Placed.foldl {α : Type} {f : Table → α → Table} {as : List α} (h : t.Placed ps)
    (step : ∀ t : Table, t.Placed ps → ∀ a ∈ as, (f t a).Placed ps) : (as.foldl f t).Placed ps := by
  induction as generalizing t with
  | nil => exact h
  | cons a rest ih =>
    exact ih (step t h a List.mem_cons_self) fun t h b mem => step t h b (.tail _ mem)

/-- The leaves below a node, with the node and those around it. -/
abbrev below (n : Node) (above : List Node) : List (Leaf × List Node) :=
  Element.leafPathsAll n.start (n :: above) n.children

theorem Placed.declare (h : t.Placed ps) {n : Node} {above : List Node} (inside : below n above ⊆ ps)
    (enclosing : Bytes) : (t.declare n enclosing).Placed ps := by
  unfold Table.declare
  split
  next kind name known found =>
    refine h.add (inside (Node.mem_of_name? found above)) ⟨?_, ?_, rfl⟩
    · exact ⟨n, above, rfl, Node.declares_of_symbolKind? known, found, rfl⟩
    · rw [Symbol.simpleName, Node.declaredName, Name.simple_qualify, Node.nameText_eq found]
  next => exact h

theorem Placed.addStatement (h : t.Placed ps) {n : Node} {above : List Node}
    (inside : below n above ⊆ ps) (enclosing : Bytes) : (t.addStatement n enclosing).Placed ps := by
  unfold Table.addStatement
  split_ifs
  · exact h
  · exact h.declare inside enclosing

theorem Placed.addProtocol (h : t.Placed ps) {n : Node} {above : List Node}
    (protocol : n.kind = .protocolDecl) (inside : below n above ⊆ ps) : (t.addProtocol n).Placed ps := by
  have spaced (space : Bytes) :
      (if t.protocol?.isNone then { t with nameSpace := space } else t).Placed ps := by
    split_ifs <;> exact h
  unfold Table.addProtocol
  refine Placed.foldl ?_ fun t h c mem => ?_
  · cases found : n.name? with
    | none => exact spaced _
    | some name =>
      refine (spaced _).add (inside (Node.mem_of_name? found above)) ⟨?_, ?_, rfl⟩
      · exact ⟨n, above, rfl, by rw [protocol]; rfl, found, rfl⟩
      · rw [Symbol.simpleName, Name.simple_qualify, Node.nameText_eq found]
  · have sublist := Element.leafPaths_of_childNodes (Node.mem_childNodes.mp mem) (n :: above)
    exact h.addStatement (List.Subset.trans sublist.subset inside) _

theorem Placed.addItem (h : t.Placed ps) {n : Node} {above : List Node} (inside : below n above ⊆ ps) :
    (t.addItem n).Placed ps := by
  unfold Table.addItem
  split_ifs with protocol
  · exact h.addProtocol protocol inside
  · exact h.addStatement inside _

/-- The symbols of a document are declared at leaves of its tree. -/
theorem symbols_at (serial : Nat) (uri : Bytes) (tree : Tree) :
    (ofTree serial uri tree).Placed tree.leafPaths := by
  have step (t : Table) (h : t.Placed tree.leafPaths) :
      ∀ c ∈ tree.root.childNodes, (t.addItem c).Placed tree.leafPaths := by
    intro c mem
    have sublist := Element.leafPaths_of_childNodes (Node.mem_childNodes.mp mem) [tree.root]
    exact h.addItem sublist.subset
  exact Placed.foldl (fun _ => nofun) step

/-- The references of a document stand at leaves of its tree, in the same order. -/
theorem references_at (serial : Nat) (uri : Bytes) (tree : Tree) :
    ∃ ps, ps.Sublist tree.leafPaths ∧
      List.Forall₂ Reference.At (ofTree serial uri tree).references ps :=
  Element.referencesAmong_at tree.children 0 _ false [tree.root]

end Table

/-! ## Spans of names -/

theorem Span.stop_eq {s : Span} (small : s.start + s.len ≤ maxOffset) : s.stop = s.start + s.len := by
  rw [stop, wrapOffset, Nat.mod_eq_of_lt]
  unfold maxOffset at small
  omega

/-- The last part of the name of a leaf, read off the text. -/
theorem Leaf.slice_simpleName {ts : List Token} {l : Leaf} (mem : l ∈ Leaf.located 0 ts)
    (small : (Token.textOf ts).length ≤ maxOffset) (named : l.token.Named) :
    (Token.textOf ts).slice l.simpleNameSpan.start l.simpleNameSpan.stop =
      Name.simple (identText l.text) := by
  obtain ⟨before, after, all, place⟩ := split_of_mem mem
  obtain ⟨front, back, spelled, -, span, -⟩ := named.split
  rw [Nat.zero_add] at place
  have whole : Token.textOf ts = Token.textOf before ++ l.token.text ++ Token.textOf after := by
    rw [all, Token.textOf_append, Token.textOf_cons, List.append_assoc]
  rw [Leaf.text]
  generalize Name.simple (identText l.token.text) = simple at spelled span
  have span : l.simpleNameSpan = ⟨(Token.textOf before).length + front.length, simple.length⟩ := by
    rw [← place]
    exact span l.start
  have size := congrArg List.length whole
  rw [spelled] at size
  simp only [List.length_append] at size
  rw [span, Span.stop_eq (by dsimp only; omega)]
  have split : Token.textOf ts =
      (Token.textOf before ++ front) ++ simple ++ (back ++ Token.textOf after) := by
    rw [whole, spelled]
    simp
  rw [Bytes.slice, split, List.take_left' (by simp only [List.length_append]),
    List.drop_left' (by simp only [List.length_append])]

/-! ## Which tokens are names -/

namespace Tree

variable {t : Tree} {limit : Nat}

/-- The text of a tree that names anything is not too long. -/
theorem fits_of_named (fresh : t.Fresh limit) {p : Leaf × List Node} (mem : p ∈ t.leafPaths)
    {n : Node} {above : List Node} (path : p.2 = n :: above) (named : n.name? = some p.1) :
    t.text.length ≤ limit ∧ t.text.length ≤ maxOffset := by
  by_contra long
  have plain : (parse t.text { maxSize := limit }).element.All fun l _ => l.name = none := by
    rw [parse, parseIn, if_pos (by simp only [Bool.or_eq_true, decide_eq_true_eq]; omega)]
    exact ⟨rfl, ⟨rfl, trivial, trivial⟩, trivial⟩
  rw [← Element.all_iff_of_relabel fresh fun _ _ => Iff.rfl] at plain
  rcases Element.all_of_leafPaths plain mem n (by simp [path]) with none | none
  · contradiction
  · obtain ⟨i, index, -⟩ := Node.name?_eq_some named
    rw [none] at index
    contradiction

/-- The leaves of a tree are the tokens of its text, unless that is too long. -/
theorem leaves_eq (lossless : t.Lossless) (fresh : t.Fresh limit)
    (fits : t.text.length ≤ limit ∧ t.text.length ≤ maxOffset) :
    t.leafPaths.map Prod.fst = Leaf.located 0 (Token.all t.text) := by
  have measured : t.element.All Element.Measured := lossless.measured.resolve_right fun long => by
    have := long.1
    omega
  have tokens : t.element.tokens = Token.all t.text := by
    rw [← Element.tokens_relabel Label.bare, fresh, Element.tokens_relabel, parse,
      parseIn_eq {} fits.1 fits.2]
    exact (Machine.run_document {} _ t.text).2.2.2
  rw [leafPaths, Element.leafPaths_eq measured, tokens]

/-- What names a type or a declaration is a word. -/
theorem isName_of_named (nodes : t.element.All Element.Named) {p : Leaf × List Node}
    (mem : p ∈ t.leafPaths) {n : Node} {above : List Node} (path : p.2 = n :: above)
    (named : n.name? = some p.1) (kind : n.kind = .typeRef ∨ n.kind.declares = true) :
    p.1.token.isName = true := by
  have can : n.kind.canBeNamed p.1.token = true := by
    rcases Element.all_of_leafPaths nodes mem n (by simp [path]) with none | here
    · contradiction
    · exact Node.canBeNamed_of_name? here named
  have other : n.kind ≠ .importStmt ∧ n.kind ≠ .jsonMember := by
    constructor <;> rintro eq <;> simp [eq, NodeKind.declares] at kind
  simpa [NodeKind.canBeNamed, other] using can

/-- What names a type or a declaration is a name. -/
theorem named_leaf (lossless : t.Lossless) (fresh : t.Fresh limit) {p : Leaf × List Node}
    (mem : p ∈ t.leafPaths) {n : Node} {above : List Node} (path : p.2 = n :: above)
    (named : n.name? = some p.1) (kind : n.kind = .typeRef ∨ n.kind.declares = true) :
    p.1.token.Named := by
  have name := isName_of_named (named_of_fresh fresh) mem path named kind
  have leaf : p.1 ∈ Leaf.located 0 (Token.all t.text) := by
    rw [← leaves_eq lossless fresh (fits_of_named fresh mem path named)]
    exact List.mem_map_of_mem mem
  obtain ⟨before, after, all, -⟩ := Leaf.split_of_mem leaf
  exact Token.named_of_next (Token.next?_of_mem all) name

end Tree

end AvroIdl
