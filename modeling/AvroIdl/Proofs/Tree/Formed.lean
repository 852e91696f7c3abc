import AvroIdl.Proofs.Parser.Placement
import AvroIdl.Proofs.Refactor.Name

/-!
# The form of trees

What can be said of every tree that a document ever has, however it was edited: `Tree.Formed`. Each
node stands where it can, a node that refers to a type is named, names are tokens that can name the
node, and the words among the tokens are names. A tree that is what reading its text gives has this
form, `Tree.parseIn_formed`. A statement that is read again is one of the same kind in the same place,
so that the form stays, `Tree.revisions_formed`. What is said of a form without regard to the length
of the text, `Tree.Shaped`, stays whatever the limits are: `Tree.reparse_shaped`. The tokens of a tree
are tokens that were read at some time, so that what reading makes sure of holds of all of them:
`Tree.revisions_tokens`.
-/

namespace AvroIdl

namespace Element

variable {P Q : Label → List Element → Prop}

mutual

/-- Two properties that hold of every node hold of it together. -/
theorem All.and {e : Element} (h : e.All P) (h' : e.All Q) :
    e.All fun l children => P l children ∧ Q l children := by
  cases e with
  | leaf t => trivial
  | node l children => exact ⟨⟨h.1, h'.1⟩, AllOf.and h.2 h'.2⟩

theorem AllOf.and {es : List Element} (h : AllOf P es) (h' : AllOf Q es) :
    AllOf (fun l children => P l children ∧ Q l children) es := by
  cases es with
  | nil => trivial
  | cons e rest => exact ⟨All.and h.1 h'.1, AllOf.and h.2 h'.2⟩

end

/-- The form of a node: where its children stand, and how it is named. -/
structure Formed (l : Label) (children : List Element) : Prop where
  sited : Sited l children
  titled : Titled l children
  named : Named l children

theorem sited_relabel {f : Label → Label} (kind : ∀ l, (f l).kind = l.kind) (l : Label)
    (children : List Element) : Sited (f l) (relabelOf f children) ↔ Sited l children := by
  rw [relabelOf_eq_map]
  constructor
  · intro sited l' inside mem
    have held := sited (f l') (relabelOf f inside) (List.mem_map.mpr ⟨_, mem, rfl⟩)
    rwa [kind, kind] at held
  · intro sited l' inside mem
    obtain ⟨e, child, eq⟩ := List.mem_map.mp mem
    cases e with
    | leaf t => simp [relabel] at eq
    | node l₀ inside₀ =>
      obtain ⟨rfl, -⟩ := Element.node.inj eq
      rw [kind, kind]
      exact sited l₀ inside₀ child

theorem formed_relabel {f : Label → Label} (kind : ∀ l, (f l).kind = l.kind)
    (name : ∀ l, (f l).name = l.name) (l : Label) (children : List Element) :
    Formed (f l) (relabelOf f children) ↔ Formed l children := by
  have titled : Titled (f l) (relabelOf f children) ↔ Titled l children := by
    rw [Titled, Titled, kind, name]
  constructor
  · rintro ⟨h, h', h''⟩
    exact ⟨(sited_relabel kind l children).mp h, titled.mp h',
      (Tree.named_relabel kind name l children).mp h''⟩
  · rintro ⟨h, h', h''⟩
    exact ⟨(sited_relabel kind l children).mpr h, titled.mpr h',
      (Tree.named_relabel kind name l children).mpr h''⟩

/-- Two elements are nodes of one kind. -/
def SameKind : Element → Element → Prop
  | node l _, node l' _ => l'.kind = l.kind
  | _, _ => False

end Element

namespace Hole

open Element

/-- A node keeps its form when a child becomes another of the same kind. -/
theorem formed_anew {h : Hole} {e e' : Element} (same : SameKind e e')
    (formed : Formed h.label (h.children e)) {l : Label} (kind : l.kind = h.label.kind)
    (name : l.name = h.label.name) : Formed l (h.children e') := by
  obtain ⟨sited, titled, named⟩ := formed
  refine ⟨fun l' inside mem => ?_, ?_, fun i index => ?_⟩
  · rw [kind]
    rcases List.mem_append.mp mem with before | mem
    · exact sited l' inside (List.mem_append_left _ before)
    · rcases List.mem_cons.mp mem with rfl | after
      · cases e with
        | leaf t => contradiction
        | node l₀ inside₀ =>
          rw [show l'.kind = l₀.kind from same]
          exact sited l₀ inside₀ (List.mem_append_right _ List.mem_cons_self)
      · exact sited l' inside (List.mem_append_right _ (.tail _ after))
  · rw [Titled, kind, name]
    exact titled
  · -- The name is a leaf, so it stands before the child or after it.
    rw [name] at index
    obtain ⟨t, here, can⟩ := named i index
    refine ⟨t, ?_, kind ▸ can⟩
    simp only [children] at here ⊢
    rcases Nat.lt_trichotomy i h.before.length with before | rfl | after
    · rwa [List.getElem?_append_left before] at here ⊢
    · rw [List.getElem?_append_right (Nat.le_refl _), Nat.sub_self, List.getElem?_cons_zero,
        Option.some.injEq] at here
      subst here
      contradiction
    · obtain ⟨k, hk⟩ : ∃ k, i - h.before.length = k + 1 := ⟨i - h.before.length - 1, by omega⟩
      rwa [List.getElem?_append_right (by omega), hk, List.getElem?_cons_succ] at here ⊢

/-- The nodes made anew around a child of the same kind keep their form. -/
theorem formed_renew {generation : UInt64} {edit : Edit} {e e' : Element} {holes : List Hole}
    (h : (fill e holes).All Formed) (he : e'.All Formed) (same : SameKind e e') (nodes : Nat) :
    (fill e' (renew generation edit nodes e' holes)).All Formed ∧
      SameKind (fill e holes) (fill e' (renew generation edit nodes e' holes)) := by
  induction holes generalizing e e' nodes with
  | nil => exact ⟨he, same⟩
  | cons hole outer ih =>
    have whole : (hole.plug e).All Formed := all_fill h
    have parts := whole.2
    simp only [children, allOf_append, AllOf] at parts
    rw [renew, fill]
    have anew : ((hole.anew generation edit nodes e').plug e').All Formed := by
      refine ⟨formed_anew same whole.1 rfl rfl, ?_⟩
      simp only [Hole.anew, children, allOf_append, AllOf]
      exact ⟨parts.1, he, parts.2.2⟩
    exact ih (e := hole.plug e) h anew rfl _

end Hole

namespace Token

/-- What is true of every token that is read, and of a text that is too long to be read. -/
structure Always (P : Token → Prop) : Prop where
  read : ∀ text, ∀ s ∈ all text, P s
  tooLong : ∀ text, text ≠ [] → P (tooLong text)

/-- The words among the tokens are names. -/
theorem always_named : Always fun s => s.isName = true → s.Named := by
  refine ⟨fun text s mem name => ?_, fun text _ name => ?_⟩
  · obtain ⟨before, after, split⟩ := List.append_of_mem mem
    exact named_of_next (next?_of_mem split) name
  · simp [tooLong, isName] at name

end Token

namespace Tree

open Element

/-- The form of a tree. -/
structure Formed (t : Tree) : Prop where
  root : t.label.kind = .document
  nodes : t.element.All Element.Formed
  words : ∀ s ∈ t.element.tokens, s.isName = true → s.Named
  /-- What is named in a text has an offset. -/
  short : t.text.length ≤ maxOffset ∨ t.element.All fun l _ => l.name = none

/-- The form of a tree, however long its text is. -/
structure Shaped (t : Tree) : Prop where
  root : t.label.kind = .document
  nodes : t.element.All Element.Formed
  words : ∀ s ∈ t.element.tokens, s.isName = true → s.Named

theorem Formed.shaped {t : Tree} (h : t.Formed) : t.Shaped := ⟨h.root, h.nodes, h.words⟩

theorem tooLong_tokens (arena : Arena) (opts : ParseOptions) (text : Bytes) :
    (tooLong arena opts text).element.tokens = [Token.tooLong text] := by
  simp [tooLong, element, Element.tokens, tokensOf]

theorem parseIn_tokens {P : Token → Prop} (h : Token.Always P) (arena : Arena) (opts : ParseOptions)
    (text : Bytes) : ∀ s ∈ (parseIn arena opts text).element.tokens, P s := by
  intro s mem
  by_cases long : (opts.maxSize < text.length || maxOffset < text.length) = true
  · rw [parseIn, if_pos long, tooLong_tokens, List.mem_singleton] at mem
    subst mem
    exact h.tooLong text (by rintro rfl; simp at long)
  · simp only [Bool.or_eq_true, decide_eq_true_eq, not_or] at long
    obtain ⟨t, way, done, _, tokens⟩ := Machine.document_reaches arena opts.generation text
    rw [parseIn_eq arena (Nat.not_lt.mp long.1) (Nat.not_lt.mp long.2)] at mem
    refine h.read text s ?_
    rw [← tokens]
    exact mem

theorem parse_tokens {P : Token → Prop} (h : Token.Always P) (text : Bytes) (opts : ParseOptions) :
    ∀ s ∈ (parse text opts).element.tokens, P s :=
  parseIn_tokens h {} opts text

theorem formed_of_built {base : Body} {m : Machine} (h : m.Built base) :
    AllOf Element.Formed m.elements :=
  (h.sited.elements.and (h.titled.elements.and h.named.elements)).imp
    fun _ _ here _ => ⟨here.1, here.2.1, here.2.2⟩

/-- All that has been read can stand in the outermost node, if no other is open. -/
theorem holds_of_sited {m : Machine} (h : m.Sited) {f : Frame} (hm : m.frames = [f]) {l : Label}
    {inside : List Element} (mem : .node l inside ∈ m.elements) : f.kind.holds l.kind = true := by
  have listed : m.elements = f.children.reverse ++ m.pending := by
    simp [Machine.elements, Frame.listed, hm]
  rw [listed] at mem
  rcases List.mem_append.mp mem with old | waits
  · exact h.frames f (by simp [hm]) l inside (List.mem_reverse.mp old)
  · have error : l.kind = .error := h.pending _ waits
    rw [error]
    rfl

theorem tooLong_formed (arena : Arena) (opts : ParseOptions) (text : Bytes) :
    (tooLong arena opts text).Formed := by
  have unnamed : (tooLong arena opts text).element.All fun l _ => l.name = none :=
    ⟨rfl, ⟨rfl, trivial, trivial⟩, trivial⟩
  have kinds : (tooLong arena opts text).element.All fun l children =>
      l.kind ≠ .typeRef ∧ Sited l children := by
    refine ⟨⟨by simp [tooLong], fun l inside mem => ?_⟩, ⟨⟨by simp, fun l inside mem => ?_⟩, trivial,
      trivial⟩, trivial⟩
    · obtain ⟨rfl, -⟩ := Element.node.inj (List.mem_singleton.mp mem)
      rfl
    · simp at mem
  refine ⟨rfl, ?_, ?_, .inr unnamed⟩
  · exact (unnamed.and kinds).imp fun l children here _ =>
      ⟨here.2.2, fun refers => absurd refers here.2.1, named_of_unnamed here.1⟩
  · rw [tooLong_tokens]
    simp [Token.tooLong, Token.isName]

/-- A tree that is read has the form of a tree. -/
theorem parseIn_formed (arena : Arena) (opts : ParseOptions) (text : Bytes) :
    (parseIn arena opts text).Formed := by
  by_cases long : (opts.maxSize < text.length || maxOffset < text.length) = true
  · rw [parseIn, if_pos long]
    exact tooLong_formed arena opts text
  · simp only [Bool.or_eq_true, decide_eq_true_eq, not_or] at long
    have words := parseIn_tokens Token.always_named arena opts text
    obtain ⟨t, way, done, -⟩ := Machine.document_reaches arena opts.generation text
    have built := Reading.built_of_reaches .document arena opts.generation 0 text way
    obtain ⟨f, hm, document⟩ := built.aligned.one_frame done
    rw [parseIn_eq arena (Nat.not_lt.mp long.1) (Nat.not_lt.mp long.2)] at words ⊢
    refine ⟨rfl, ⟨⟨?_, ?_, named_of_unnamed rfl⟩, formed_of_built built⟩, words,
      .inl (Nat.not_lt.mp long.2)⟩
    · intro l inside mem
      have held := holds_of_sited built.sited hm mem
      rwa [document] at held
    · intro refers
      contradiction

theorem parse_formed (text : Bytes) (opts : ParseOptions) : (parse text opts).Formed :=
  parseIn_formed {} opts text

/-- A statement that is read again has the form of one. -/
theorem rereadAs_formed {n : Node} {body : Body} {above : List Node} {arena : Arena}
    {generation : UInt64} {text : Bytes} {l : Label} {children : List Element}
    (read : (n.rereadAs body above arena generation text).contents = [.node l children]) :
    (Element.node l children).All Element.Formed := by
  have task := Goal.Task.statement body
  obtain ⟨t, rest, way, -⟩ := Machine.run_ofText (Machine.steady_start task arena generation
    (above.countP fun a => a.kind.hasBlock)) (text.drop n.start)
  obtain ⟨-, -, split, -⟩ := Machine.run_statement body arena generation
    (above.countP fun a => a.kind.hasBlock) (text.drop n.start)
  have formed := formed_of_built (Reading.built_of_reaches task _ _ _ _ way)
  dsimp only [Node.rereadAs] at read
  rw [split, read] at formed
  exact formed.1

/-- The tokens of a tree in which a statement is read again have been there, or are read. -/
theorem Patch.mem_tokens {generation : UInt64} {edit : Edit} {text : Bytes} {nodes : Nat} {t : Tree}
    {n : Node} {tree : Tree} (p : Patch generation edit text nodes t.element n tree) {s : Token}
    (mem : s ∈ tree.element.tokens) :
    s ∈ t.element.tokens ∨ s ∈ Token.all (text.drop n.start) := by
  obtain ⟨read, -⟩ := Node.replacement?_eq_some p.read
  obtain ⟨-, -, -, more, tokens⟩ := Node.rereadAs_made read
  rw [← p.whole, Hole.tokens_fill, List.append_assoc]
  rw [p.filled, Hole.tokens_fill, Hole.front_renew, Hole.back_renew, List.append_assoc] at mem
  rcases List.mem_append.mp mem with before | mem
  · exact .inl (List.mem_append_left _ before)
  · rcases List.mem_append.mp mem with inside | after
    · rw [tokens]
      exact .inr (List.mem_append_left _ inside)
    · exact .inl (List.mem_append_right _ (List.mem_append_right _ after))

theorem Patch.shaped {generation : UInt64} {edit : Edit} {text : Bytes} {nodes : Nat} {t : Tree}
    {n : Node} {tree : Tree} (p : Patch generation edit text nodes t.element n tree)
    (h : t.Shaped) : tree.Shaped := by
  obtain ⟨read, kind, -⟩ := Node.replacement?_eq_some p.read
  obtain ⟨nodes, same⟩ := Hole.formed_renew (e := n.element) (p.filled_all h.nodes)
    (rereadAs_formed read) kind _
  rw [← p.filled] at nodes same
  rw [p.whole] at same
  refine ⟨Eq.trans same h.root, nodes, fun s mem => ?_⟩
  exact (p.mem_tokens mem).elim (h.words s) (Token.always_named.read _ s)

theorem Patch.formed {generation : UInt64} {edit : Edit} {text : Bytes} {nodes : Nat} {t : Tree}
    {n : Node} {tree : Tree} (p : Patch generation edit text nodes t.element n tree)
    (h : t.Formed) (short : text.length ≤ maxOffset) : tree.Formed := by
  obtain ⟨root, nodes, words⟩ := p.shaped h.shaped
  exact ⟨root, nodes, words, .inl (by rwa [p.text_eq])⟩

theorem compact_tokens (t : Tree) : t.compact.element.tokens = t.element.tokens := by
  have same := relabel_compact (f := Label.unnumbered) (fun _ _ => rfl) t
  rw [← tokens_relabel Label.unnumbered, same, tokens_relabel]

theorem compact_shaped {t : Tree} (h : t.Shaped) : t.compact.Shaped := by
  have same := relabel_compact (f := Label.unnumbered) (fun _ _ => rfl) t
  refine ⟨h.root, ?_, ?_⟩
  · rw [all_iff_of_relabel same (formed_relabel (fun _ => rfl) fun _ => rfl)]
    exact h.nodes
  · rw [compact_tokens]
    exact h.words

theorem compact_formed {t : Tree} (h : t.Formed) : t.compact.Formed := by
  obtain ⟨root, nodes, words⟩ := compact_shaped h.shaped
  refine ⟨root, nodes, words, ?_⟩
  rw [all_iff_of_relabel (relabel_compact (f := Label.unnumbered) (fun _ _ => rfl) t)
    fun _ _ => Iff.rfl]
  exact h.short

/-- Only a text that is not too long is read in part. -/
theorem short_of_reparse {t : Tree} {edit : Edit} {opts : ParseOptions} {r : Reparsed}
    {text : Bytes} (h : t.reparse edit opts = .ok r) (applied : edit.apply t.text = .ok text)
    (part : r.full = false) : text.length ≤ opts.maxSize := by
  by_contra long
  unfold reparse at h
  simp only [applied, bind, Except.bind, if_neg long] at h
  obtain rfl := Except.ok.inj h
  contradiction

theorem reparse_formed {t : Tree} {edit : Edit} {opts : ParseOptions} {r : Reparsed}
    (h : t.reparse edit opts = .ok r) (limit : opts.maxSize ≤ maxOffset) (lossless : t.Lossless)
    (formed : t.Formed) : r.tree.Formed := by
  obtain ⟨text, applied, ⟨_, eq⟩ | ⟨part, n, tree, ⟨p⟩, _, _, eq⟩⟩ := reparse_cases h lossless
  · rw [eq]
    exact parse_formed _ _
  · have whole := p.formed formed (Nat.le_trans (short_of_reparse h applied part) limit)
    rcases eq with eq | eq <;> rw [eq]
    · exact whole
    · exact compact_formed whole

theorem reparse_shaped {t : Tree} {edit : Edit} {opts : ParseOptions} {r : Reparsed}
    (h : t.reparse edit opts = .ok r) (lossless : t.Lossless) (shaped : t.Shaped) :
    r.tree.Shaped := by
  obtain ⟨text, applied, ⟨_, eq⟩ | ⟨_, n, tree, ⟨p⟩, _, _, eq⟩⟩ := reparse_cases h lossless
  · rw [eq]
    exact (parse_formed _ _).shaped
  · rcases eq with eq | eq <;> rw [eq]
    · exact p.shaped shaped
    · exact compact_shaped (p.shaped shaped)

end Tree

/-- A step reads no text that is too long for the offsets. -/
def Revision.Limited : Revision → Prop
  | .edit _ opts => opts.maxSize ≤ maxOffset
  | .compact => True

namespace Tree

theorem revise_formed {t : Tree} (lossless : t.Lossless) (formed : t.Formed) {step : Revision}
    (limited : step.Limited) : (t.revise step).Formed := by
  cases step with
  | compact => exact compact_formed formed
  | edit edit opts =>
    simp only [revise]
    cases read : t.reparse edit opts with
    | ok r => exact reparse_formed read limited lossless formed
    | error e => exact formed

/-- Every tree that a document ever has has the form of a tree. -/
theorem revisions_formed {t : Tree} (lossless : t.Lossless) (formed : t.Formed)
    {steps : List Revision} (limited : ∀ step ∈ steps, step.Limited) :
    (t.revisions steps).Formed := by
  induction steps generalizing t with
  | nil => exact formed
  | cons step rest ih =>
    exact ih (revise_lossless lossless step).1
      (revise_formed lossless formed (limited step List.mem_cons_self))
      fun other mem => limited other (.tail _ mem)

theorem revise_shaped {t : Tree} (lossless : t.Lossless) (shaped : t.Shaped) (step : Revision) :
    (t.revise step).Shaped := by
  cases step with
  | compact => exact compact_shaped shaped
  | edit edit opts =>
    simp only [revise]
    cases read : t.reparse edit opts with
    | ok r => exact reparse_shaped read lossless shaped
    | error e => exact shaped

theorem revisions_shaped {t : Tree} (lossless : t.Lossless) (shaped : t.Shaped)
    (steps : List Revision) : (t.revisions steps).Shaped := by
  induction steps generalizing t with
  | nil => exact shaped
  | cons step rest ih =>
    exact ih (revise_lossless lossless step).1 (revise_shaped lossless shaped step)

variable {P : Token → Prop}

theorem revise_tokens (h : Token.Always P) {t : Tree} (lossless : t.Lossless)
    (before : ∀ s ∈ t.element.tokens, P s) (step : Revision) :
    ∀ s ∈ (t.revise step).element.tokens, P s := by
  cases step with
  | compact => exact t.compact_tokens ▸ before
  | edit edit opts =>
    simp only [revise]
    cases read : t.reparse edit opts with
    | error e => exact before
    | ok r =>
      obtain ⟨text, applied, ⟨_, eq⟩ | ⟨_, n, tree, ⟨p⟩, _, _, eq⟩⟩ := reparse_cases read lossless
      · dsimp only
        rw [eq]
        exact parse_tokens h _ _
      · have whole : ∀ s ∈ tree.element.tokens, P s := fun s mem =>
          (p.mem_tokens mem).elim (before s) (h.read _ s)
        rcases eq with eq | eq <;> dsimp only <;> rw [eq]
        · exact whole
        · exact tree.compact_tokens ▸ whole

/-- What reading makes sure of holds of the tokens of every tree that a document ever has. -/
theorem revisions_tokens (h : Token.Always P) {t : Tree} (lossless : t.Lossless)
    (before : ∀ s ∈ t.element.tokens, P s) (steps : List Revision) :
    ∀ s ∈ (t.revisions steps).element.tokens, P s := by
  induction steps generalizing t with
  | nil => exact before
  | cons step rest ih =>
    exact ih (revise_lossless lossless step).1 (revise_tokens h lossless before step)

end Tree

end AvroIdl
