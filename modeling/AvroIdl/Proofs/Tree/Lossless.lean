import AvroIdl.Proofs.Parser.Elements
import AvroIdl.Proofs.Tree.Hole
import AvroIdl.Proofs.Tree.Relabel

/-!
# Trees hold their text

`Tree.Lossless` says that the leaves of a tree spell its text, that widths and error marks are those
of the children, and that no two nodes share a number. It holds of a tree that is read,
`Tree.parseIn_lossless`, and stays when the tree is compacted or read again after an edit,
`Tree.reparse_lossless`.

`Tree.Patch` says what a tree is after one statement of it was read again.
-/

namespace AvroIdl

open Element

/-- An edit inside a part of a text leaves what is around the part. -/
theorem Edit.apply_inside (edit : Edit) (before part after : Bytes)
    (lo : before.length < edit.start)
    (hi : edit.start + edit.oldLen < before.length + part.length) :
    ∃ part', edit.apply (before ++ part ++ after) = .ok (before ++ part' ++ after) ∧
      part'.length = edit.resize part.length := by
  obtain ⟨k, hk⟩ : ∃ k, edit.start = before.length + k := ⟨edit.start - before.length, by omega⟩
  refine ⟨part.take k ++ edit.newText ++ part.drop (k + edit.oldLen), ?_, ?_⟩
  · have fits : ¬ (before ++ part ++ after).length < edit.start + edit.oldLen := by
      simp only [List.length_append]
      omega
    have head : (before ++ part ++ after).take edit.start = before ++ part.take k := by
      rw [hk, List.append_assoc, List.take_length_add_append, List.take_append_of_le_length (by omega)]
    have tail : (before ++ part ++ after).drop (edit.start + edit.oldLen) =
        part.drop (k + edit.oldLen) ++ after := by
      rw [hk, List.append_assoc, Nat.add_assoc, List.drop_length_add_append,
        List.drop_append_of_le_length (by omega)]
    rw [Edit.apply, if_neg fits, head, tail]
    simp only [List.append_assoc]
  · simp only [List.length_append, List.length_take, List.length_drop, Edit.resize]
    omega

namespace Tree

/-- A tree whose nodes hold its text, and say so. A text that is too long for the offsets is held by
a tree without statements. -/
structure Lossless (t : Tree) : Prop where
  text : t.element.text = t.text
  marked : t.element.All Marked
  nodup : t.element.ids.Nodup
  bound : ∀ i ∈ t.element.ids, i ≤ t.arena.nodes
  measured : t.element.All Measured ∨
    (maxOffset < t.text.length ∧ t.element.All fun l _ => l.kind.standsAlone = false)

theorem tooLong_lossless (arena : Arena) (opts : ParseOptions) (text : Bytes) :
    (tooLong arena opts text).Lossless := by
  refine ⟨?_, ?_, ?_, ?_, ?_⟩
  · simp [tooLong, element, Element.text, textOf, Token.tooLong]
  · simp [tooLong, element, All, AllOf, Marked, Element.hasError]
  · simp [tooLong, element, ids, idsOf]
  · simp [tooLong, element, ids, idsOf]
  · by_cases fits : text.length ≤ maxOffset
    · refine .inl ?_
      simp [tooLong, element, All, AllOf, Measured, Element.width, Token.tooLong, fits]
    · refine .inr ⟨by simpa [tooLong] using fits, ?_⟩
      simp [tooLong, element, All, AllOf, NodeKind.standsAlone]

/-- A root around elements that the parser has made holds their text. -/
theorem lossless_of_made {lo : Nat} {arena : Arena} {generation : UInt64}
    {children : List Element} {text : Bytes} {label : Label}
    (made : AllOf (Machine.Made generation) children) (numbered : Numbered lo arena.nodes children)
    (low : lo ≤ arena.nodes) (text_eq : textOf children = text)
    (hl : label = arena.nextLabel generation .document none none children) :
    Lossless ⟨arena.addNode, label, children, text, generation⟩ := by
  obtain ⟨nodup, bounds⟩ := numbered.node (l := label) (by simp [hl, Arena.nextLabel]) low
  simp only [idsOf, List.append_nil] at nodup bounds
  refine ⟨text_eq, ⟨by rw [hl]; rfl, made.imp fun _ _ h _ => h.2.1⟩, nodup, fun i mem => ?_,
    .inl ⟨by rw [hl]; rfl, made.imp fun _ _ h _ => h.1⟩⟩
  exact (bounds i mem).2

@[simp] theorem text_parseIn (arena : Arena) (opts : ParseOptions) (text : Bytes) :
    (parseIn arena opts text).text = text := by
  unfold parseIn
  split_ifs <;> rfl

@[simp] theorem generation_parseIn (arena : Arena) (opts : ParseOptions) (text : Bytes) :
    (parseIn arena opts text).generation = opts.generation := by
  unfold parseIn
  split_ifs <;> rfl

/-- The tree of a text that is not too long holds all that a run of the parser has read. -/
theorem parseIn_eq (arena : Arena) {opts : ParseOptions} {text : Bytes}
    (fits : text.length ≤ opts.maxSize) (small : text.length ≤ maxOffset) :
    let last := (Machine.start arena opts.generation 0 [.items .document, .leftovers]).run
      (lexemes text)
    parseIn arena opts text =
      { arena := last.arena.addNode
        label := last.arena.nextLabel opts.generation .document none none last.elements
        children := last.elements
        text
        generation := opts.generation } := by
  intro last
  obtain ⟨⟨f, hf, _⟩, _⟩ := Machine.run_document arena opts.generation text
  have short : (opts.maxSize < text.length || maxOffset < text.length) = false := by
    simp only [Bool.or_eq_false_iff, decide_eq_false_iff_not]
    omega
  simp only [parseIn, short, Machine.contents_flush hf, Machine.arena_flush]
  rfl

theorem parseIn_lossless (arena : Arena) (opts : ParseOptions) (text : Bytes) :
    (parseIn arena opts text).Lossless := by
  by_cases long : (opts.maxSize < text.length || maxOffset < text.length) = true
  · rw [parseIn, if_pos long]
    exact tooLong_lossless arena opts text
  · simp only [Bool.or_eq_true, decide_eq_true_eq, not_or] at long
    obtain ⟨_, ⟨made, numbered, low⟩, stamp, tokens⟩ :=
      Machine.run_document arena opts.generation text
    rw [stamp] at made
    rw [parseIn_eq arena (Nat.not_lt.mp long.1) (Nat.not_lt.mp long.2)]
    exact lossless_of_made made numbered low
      (by rw [textOf_eq_tokens, tokens, Token.text_all]) rfl

end Tree

/-- A node replaces another if it is all that was read, of the same kind, and as wide as the edit
makes it, and if the text after it cannot extend its last token. -/
theorem Node.replacement?_eq_some {n : Node} {edit : Edit} {read : List Element} {l : Label}
    {children : List Element} (h : n.replacement? edit read = some (l, children)) :
    read = [.node l children] ∧ l.kind = n.kind ∧ l.width = edit.resize n.label.width ∧
      ∃ t, lastTokenOf? children = some t ∧
        (t.kind = .closeCurl ∨ t.kind = .semi ∨ t.kind = .closeParen) := by
  unfold Node.replacement? at h
  split at h
  next l' children' =>
    split at h
    next t last =>
      split_ifs at h with fits
      simp only [Option.some.injEq, Prod.mk.injEq] at h
      obtain ⟨rfl, rfl⟩ := h
      simp only [Bool.and_eq_true, decide_eq_true_eq, Bool.or_eq_true, or_assoc] at fits
      exact ⟨rfl, fits.1.1, fits.1.2, t, last, fits.2⟩
    · contradiction
  · contradiction

/-- What is known of a statement that is read again. -/
theorem Node.rereadAs_made {n : Node} {body : Body} {above : List Node} {arena : Arena}
    {generation : UInt64} {text : Bytes} {l : Label} {children : List Element}
    (read : (n.rereadAs body above arena generation text).contents = [.node l children]) :
    let m := n.rereadAs body above arena generation text
    All (Machine.Made generation) (.node l children) ∧
      Numbered arena.nodes m.arena.nodes [.node l children] ∧ arena.nodes ≤ m.arena.nodes ∧
      ∃ more, Token.all (text.drop n.start) = tokensOf children ++ more := by
  intro m
  obtain ⟨⟨made, numbered, low⟩, stamp, split, more, tokens⟩ := Machine.run_statement body arena
    generation (above.countP fun a => a.kind.hasBlock) (text.drop n.start)
  change AllOf (Machine.Made m.generation) m.elements at made
  change m.generation = generation at stamp
  change Numbered arena.nodes m.arena.nodes m.elements at numbered
  change m.elements = m.contents ++ m.pending at split
  change _ = tokensOf m.contents ++ more at tokens
  rw [split, show m.contents = _ from read] at made numbered
  rw [show m.contents = _ from read] at tokens
  refine ⟨stamp ▸ (allOf_append.mp made).1.1, numbered.left, low, more, ?_⟩
  simpa [tokensOf, Element.tokens] using tokens

namespace Tree

/-- Of the nodes on the way to the root, `n` is read again in an arena that has at least `nodes`
nodes, and what was read is put into its place. -/
inductive Rebuilt (generation : UInt64) (edit : Edit) (text : Bytes) (nodes : Nat) :
    List Node → Node → Tree → Prop
  | here {n : Node} {above : List Node} {body : Body} {arena arena' : Arena} {l label : Label}
    {inside children : List Element} (more : nodes ≤ arena.nodes)
    (hbody : (above.head?.bind fun parent => parent.kind.body?) = some body)
    (alone : n.kind.standsAlone) (around : n.surrounds edit)
    (read : n.replacement? edit (n.rereadAs body above arena generation text).contents =
      some (l, inside))
    (spliced : splice generation edit (n.rereadAs body above arena generation text).arena n.id l
      inside above = (arena', label, children)) :
    Rebuilt generation edit text nodes (n :: above) n ⟨arena', label, children, text, generation⟩
  | outside {n n' : Node} {above : List Node} {tree : Tree}
    (rest : Rebuilt generation edit text nodes above n tree) :
    Rebuilt generation edit text nodes (n' :: above) n tree

theorem Rebuilt.mono {generation : UInt64} {edit : Edit} {text : Bytes} {nodes nodes' : Nat}
    {path : List Node} {n : Node} {tree : Tree}
    (h : Rebuilt generation edit text nodes' path n tree) (le : nodes ≤ nodes') :
    Rebuilt generation edit text nodes path n tree := by
  induction h with
  | here more hbody alone around read spliced =>
    exact .here (Nat.le_trans le more) hbody alone around read spliced
  | outside _ ih => exact .outside ih

theorem rebuilt_of_reparseAlong {generation : UInt64} {edit : Edit} {text : Bytes} {arena : Arena}
    {path : List Node} {n : Node} {tree : Tree}
    (h : reparseAlong generation edit text arena path = some (n, tree)) :
    Rebuilt generation edit text arena.nodes path n tree := by
  fun_induction reparseAlong generation edit text arena path with
  | case1 => contradiction
  | case2 arena n' above none ih => exact .outside (ih h)
  | case3 arena n' above body hbody alone m l inside found arena' label children spliced =>
    simp only [Option.some.injEq, Prod.mk.injEq] at h
    obtain ⟨rfl, rfl⟩ := h
    rw [Bool.and_eq_true] at alone
    exact .here (Nat.le_refl _) hbody alone.1 alone.2 found spliced
  | case4 arena n' above body hbody alone m failed ih =>
    have more := (Machine.run_statement body arena generation
      (above.countP fun a => a.kind.hasBlock) (text.drop n'.start)).1.low
    exact .outside ((ih h).mono more)
  | case5 arena n' above body hbody alone ih => exact .outside (ih h)

/-- A tree that is another with the node `n` read again in a new text, in an arena that had at least
`nodes` nodes: what is around `n`, and what was read in its place. -/
structure Patch (generation : UInt64) (edit : Edit) (text : Bytes) (nodes : Nat) (root : Element)
    (n : Node) (tree : Tree) where
  holes : List Hole
  body : Body
  arena : Arena
  label : Label
  inside : List Element
  whole : Hole.fill n.element holes = root
  start : n.start = Hole.offset holes
  more : nodes ≤ arena.nodes
  parent : ((Hole.path n.element holes).head?.bind fun parent => parent.kind.body?) = some body
  alone : n.kind.standsAlone
  around : n.surrounds edit
  read : n.replacement? edit (n.rereadAs body (Hole.path n.element holes) arena generation
    text).contents = some (label, inside)
  filled : tree.element = Hole.fill (.node label inside) (Hole.renew generation edit
    (n.rereadAs body (Hole.path n.element holes) arena generation text).arena.nodes
    (.node label inside) holes)
  count : tree.arena.nodes = (n.rereadAs body (Hole.path n.element holes) arena generation
    text).arena.nodes + holes.length
  text_eq : tree.text = text
  generation_eq : tree.generation = generation

theorem Rebuilt.patch {generation : UInt64} {edit : Edit} {text : Bytes} {nodes : Nat}
    {root : Element} {path : List Node} {n : Node} {tree : Tree}
    (h : Rebuilt generation edit text nodes path n tree) (leads : Node.Leads root path)
    (nodup : root.ids.Nodup) : Nonempty (Patch generation edit text nodes root n tree) := by
  induction h with
  | @here n above body arena arena' l label inside children more hbody alone around read spliced =>
    obtain ⟨holes, rfl, start, whole⟩ := leads
    have nodup' : (Hole.fill (.node n.label n.children) holes).ids.Nodup := by
      rw [← whole] at nodup
      exact nodup
    obtain ⟨label', children', eq, filled⟩ := splice_eq nodup' generation edit
      (n.rereadAs body (Hole.path n.element holes) arena generation text).arena l inside
    obtain ⟨rfl, rfl, rfl⟩ : _ = arena' ∧ label' = label ∧ children' = children := by
      simpa using eq.symm.trans spliced
    exact ⟨⟨holes, body, arena, l, inside, whole, start, more, hbody, alone, around, read, filled,
      rfl, rfl, rfl⟩⟩
  | @outside n n' above tree rest ih =>
    cases rest with
    | here => exact ih leads.tail
    | outside => exact ih leads.tail

namespace Patch

variable {generation : UInt64} {edit : Edit} {text : Bytes} {nodes : Nat} {t : Tree}
  {n : Node} {tree : Tree}

/-- The statement that was read again is a node like every other. -/
theorem made (p : Patch generation edit text nodes t.element n tree) :
    All (Machine.Made generation) (.node p.label p.inside) :=
  (Node.rereadAs_made (Node.replacement?_eq_some p.read).1).1

theorem filled_all {P : Label → List Element → Prop}
    (p : Patch generation edit text nodes t.element n tree) (h : t.element.All P) :
    (Hole.fill n.element p.holes).All P := by
  rw [p.whole]
  exact h

theorem measured (p : Patch generation edit text nodes t.element n tree) (h : t.Lossless) :
    t.element.All Measured := by
  obtain measured | ⟨_, plain⟩ := h.measured
  · exact measured
  · have alone := p.alone
    rw [Node.kind, (Hole.all_fill (p.filled_all plain)).1] at alone
    contradiction

/-- The edit changes the text of the node, and what is around it stays. -/
theorem texts (p : Patch generation edit text nodes t.element n tree) (h : t.Lossless)
    (applied : edit.apply t.text = .ok text) :
    (Token.textOf (Hole.front p.holes)).length = n.start ∧
      t.text = Token.textOf (Hole.front p.holes) ++ n.element.text ++
        Token.textOf (Hole.back p.holes) ∧
      text = Token.textOf (Hole.front p.holes) ++ textOf p.inside ++
        Token.textOf (Hole.back p.holes) := by
  have measured := p.filled_all (p.measured h)
  have start : (Token.textOf (Hole.front p.holes)).length = n.start := by
    rw [p.start, Hole.offset_eq measured]
  have width : n.label.width = n.element.text.length := width_eq (Hole.all_fill measured)
  have old : t.text = Token.textOf (Hole.front p.holes) ++ n.element.text ++
      Token.textOf (Hole.back p.holes) := by
    calc t.text = (Hole.fill n.element p.holes).text := by rw [p.whole, h.text]
      _ = _ := by simp [text_eq_tokens, Hole.tokens_fill]
  have around := p.around
  simp only [Node.surrounds, Bool.and_eq_true, decide_eq_true_eq] at around
  obtain ⟨part, applied', size⟩ := Edit.apply_inside edit (Token.textOf (Hole.front p.holes))
    n.element.text (Token.textOf (Hole.back p.holes)) (by omega) (by omega)
  rw [old, applied'] at applied
  have new := Except.ok.inj applied
  -- What was read is as long as the part that the edit made, and starts where it starts.
  obtain ⟨read, _, hwidth, _⟩ := Node.replacement?_eq_some p.read
  obtain ⟨made, _, _, more, tokens⟩ := Node.rereadAs_made read
  have length : (textOf p.inside).length = part.length := by
    rw [← widthOf_eq (made.imp fun _ _ h _ => h.1).2, ← made.1.1, hwidth, size, ← width]
  have same : textOf p.inside ++ Token.textOf more = part ++ Token.textOf (Hole.back p.holes) := by
    calc textOf p.inside ++ Token.textOf more = text.drop n.start := by
          rw [textOf_eq_tokens, ← Token.textOf_append, ← tokens, Token.text_all]
      _ = _ := by simp only [← new, ← start, List.append_assoc, List.drop_left]
  refine ⟨start, old, ?_⟩
  rw [(List.append_inj same length).1, new]

/-- What was read has new numbers, and the nodes beside it keep theirs. -/
theorem numbered (p : Patch generation edit text nodes t.element n tree) (h : t.Lossless)
    (le : t.arena.nodes ≤ nodes) :
    tree.element.ids.Nodup ∧ ∀ i ∈ tree.element.ids, i ≤ tree.arena.nodes := by
  obtain ⟨read, _⟩ := Node.replacement?_eq_some p.read
  obtain ⟨_, ⟨nodup, within⟩, low, _⟩ := Node.rereadAs_made read
  have more := p.more
  have perm := Hole.ids_fill n.element p.holes
  rw [p.whole] at perm
  have sub : (Hole.beside p.holes).Sublist (n.element.ids ++ Hole.idsOf p.holes) :=
    (Hole.beside_sublist _).trans (List.sublist_append_right _ _)
  have old : ∀ i ∈ Hole.beside p.holes, i ≤ p.arena.nodes := fun i mem => by
    have := h.bound i (perm.mem_iff.mpr (sub.subset mem))
    omega
  rw [Element.idsOf, Element.idsOf, List.append_nil] at nodup within
  rw [p.filled, p.count]
  refine Hole.numbered_renew ?_ ?_
  · refine List.nodup_append.mpr ⟨nodup, sub.nodup (perm.nodup_iff.mp h.nodup), ?_⟩
    rintro i mem j mem' rfl
    have := within i mem
    have := old i mem'
    omega
  · intro i mem
    rcases List.mem_append.mp mem with mem | mem
    · exact (within i mem).2
    · exact Nat.le_trans (old i mem) low

/-- The widths of the new tree are right. -/
theorem remeasured (p : Patch generation edit text nodes t.element n tree) (h : t.Lossless) :
    tree.element.All Measured := by
  obtain ⟨read, _, hwidth, _⟩ := Node.replacement?_eq_some p.read
  obtain ⟨made, _⟩ := Node.rereadAs_made read
  have around := p.around
  simp only [Node.surrounds, Bool.and_eq_true, decide_eq_true_eq] at around
  rw [p.filled]
  exact Hole.measured_renew (e := n.element) (p.filled_all (p.measured h))
    (made.imp fun _ _ h _ => h.1) (by simp only [Node.element, Element.width]; omega) hwidth _

theorem lossless (p : Patch generation edit text nodes t.element n tree) (h : t.Lossless)
    (applied : edit.apply t.text = .ok text) (le : t.arena.nodes ≤ nodes) : tree.Lossless := by
  obtain ⟨_, _, new⟩ := p.texts h applied
  obtain ⟨read, _⟩ := Node.replacement?_eq_some p.read
  obtain ⟨made, _⟩ := Node.rereadAs_made read
  obtain ⟨nodup, bound⟩ := p.numbered h le
  refine ⟨?_, ?_, nodup, bound, .inl (p.remeasured h)⟩
  · calc tree.element.text = Token.textOf (Hole.front p.holes) ++ textOf p.inside ++
          Token.textOf (Hole.back p.holes) := by
          simp [p.filled, text_eq_tokens, Hole.tokens_fill, Hole.front_renew, Hole.back_renew,
            Element.tokens, textOf_eq_tokens]
      _ = tree.text := by rw [← new, p.text_eq]
  · rw [p.filled]
    exact Hole.marked_renew (e := n.element) (p.filled_all h.marked) (made.imp fun _ _ h _ => h.2.1) _

end Patch

/-! ## Compaction and editing -/

/-- A tree in an arena of its own holds what it held. -/
theorem compact_lossless {t : Tree} (h : t.Lossless) : t.compact.Lossless := by
  have same := relabel_compact (f := Label.unnumbered) (fun _ _ => rfl) t
  obtain ⟨nodup, bounds⟩ := numbered_compact t
  rw [idsOf, idsOf, List.append_nil] at nodup bounds
  refine ⟨?_, ?_, nodup, fun i mem => (bounds i mem).2, ?_⟩
  · calc t.compact.element.text = t.element.text := by
          rw [text_eq_tokens, ← tokens_relabel Label.unnumbered, same, tokens_relabel, text_eq_tokens]
      _ = t.compact.text := h.text
  · rw [all_iff_of_relabel same (marked_relabel (fun _ => rfl) fun _ => rfl)]
    exact h.marked
  · rw [all_iff_of_relabel same (measured_relabel fun _ => rfl),
      all_iff_of_relabel same fun _ _ => Iff.rfl]
    exact h.measured

/-- What reading an edited text again can come to: the whole text is read, or one node of the tree
is, and the new tree may be moved to an arena of its own. -/
theorem reparse_cases {t : Tree} {edit : Edit} {opts : ParseOptions} {r : Reparsed}
    (h : t.reparse edit opts = .ok r) (lossless : t.Lossless) :
    ∃ text, edit.apply t.text = .ok text ∧
      (r.full = true ∧
          r.tree = parse text { opts with generation := t.nextGeneration opts.generation } ∨
        r.full = false ∧ ∃ n tree,
          Nonempty (Patch (t.nextGeneration opts.generation) edit text t.arena.nodes t.element n tree) ∧
          r.kind = n.kind ∧ r.span.start = n.start ∧
          (r.tree = tree ∨ r.tree = tree.compact)) := by
  unfold reparse at h
  cases applied : edit.apply t.text with
  | error e => simp [applied, bind, Except.bind] at h
  | ok text =>
    refine ⟨text, rfl, ?_⟩
    simp only [applied, bind, Except.bind] at h
    split at h
    next n tree partly =>
      split_ifs at partly
      obtain rfl := Except.ok.inj h
      refine .inr ⟨rfl, n, tree, ?_, rfl, rfl, ?_⟩
      · exact (rebuilt_of_reparseAlong partly).patch (leads_pathAt t edit.start) lossless.nodup
      · dsimp only
        split_ifs
        · exact .inr rfl
        · exact .inl rfl
    next =>
      obtain rfl := Except.ok.inj h
      exact .inl ⟨rfl, rfl⟩

/-- A tree that is read again after an edit holds the edited text. -/
theorem reparse_lossless {t : Tree} {edit : Edit} {opts : ParseOptions} {r : Reparsed}
    (h : t.reparse edit opts = .ok r) (lossless : t.Lossless) :
    r.tree.Lossless ∧ edit.apply t.text = .ok r.tree.text := by
  obtain ⟨text, applied, ⟨_, eq⟩ | ⟨_, n, tree, ⟨p⟩, _, _, eq⟩⟩ := reparse_cases h lossless
  · rw [eq]
    exact ⟨parseIn_lossless _ _ _, by rw [applied, parse, text_parseIn]⟩
  · have whole := p.lossless lossless applied (Nat.le_refl _)
    have text_eq := p.text_eq
    rcases eq with eq | eq <;> rw [eq]
    · exact ⟨whole, by rw [applied, text_eq]⟩
    · exact ⟨compact_lossless whole, by rw [applied, ← text_eq]; rfl⟩

end Tree

end AvroIdl
