import AvroIdl.Proofs.Tree.Lossless

/-!
# Histories of a document

A document is read once, and then edited and compacted any number of times. Whatever the edits are,
its tree holds the text: `Tree.history_lossless`. What one step keeps is said by
`Tree.revise_lossless` and `Tree.revise_stamped`.

Nodes are looked at by their places: `Node.at?` goes from a node down to a child of a child.
-/

namespace AvroIdl

open Element

namespace Tree

/-! ## Stamps -/

/-- No node of a tree is newer than the node around it, and the root is as new as the tree. -/
structure Stamped (t : Tree) : Prop where
  aged : t.element.All Aged
  root : t.label.generation = t.generation

theorem parseIn_stamped (arena : Arena) (opts : ParseOptions) (text : Bytes) :
    (parseIn arena opts text).Stamped := by
  by_cases long : (opts.maxSize < text.length || maxOffset < text.length) = true
  · have now : (tooLong arena opts text).element.All fun l _ => l.generation = opts.generation :=
      ⟨rfl, ⟨rfl, trivial, trivial⟩, trivial⟩
    rw [parseIn, if_pos long]
    exact ⟨All.aged now, rfl⟩
  · simp only [Bool.or_eq_true, decide_eq_true_eq, not_or] at long
    obtain ⟨_, ⟨made, _⟩, stamp, _⟩ := Machine.run_document arena opts.generation text
    rw [stamp] at made
    have now : AllOf (fun l _ => l.generation = opts.generation) _ := made.imp fun _ _ h _ => h.2.2
    rw [parseIn_eq arena (Nat.not_lt.mp long.1) (Nat.not_lt.mp long.2)]
    exact ⟨All.aged ⟨rfl, now⟩, rfl⟩

theorem Patch.stamped {generation : UInt64} {edit : Edit} {text : Bytes} {nodes : Nat} {t : Tree}
    {n : Node} {tree : Tree} (p : Patch generation edit text nodes t.element n tree)
    (h : t.Stamped) (le : t.generation ≤ generation) : tree.Stamped := by
  have made := p.made
  have old : t.element.All (AtMost generation) := h.aged.atMost fun l children eq => by
    obtain ⟨rfl, rfl⟩ := Element.node.inj eq
    rwa [h.root]
  obtain ⟨l, children, eq, now⟩ := Hole.top_renew made.1.2.2 edit p.holes
    (n.rereadAs p.body (Hole.path n.element p.holes) p.arena generation text).arena.nodes
  constructor
  · rw [p.filled]
    refine Hole.aged_renew (e := n.element) (p.filled_all h.aged) (p.filled_all old) ?_ ?_ _
    · exact All.aged (made.imp fun _ _ h _ => h.2.2)
    · exact made.imp fun _ _ h _ => h.2.2 ▸ UInt64.le_refl _
  · rw [← p.filled] at eq
    obtain ⟨rfl, rfl⟩ := Element.node.inj eq
    rw [now, p.generation_eq]

theorem compact_stamped {t : Tree} (h : t.Stamped) : t.compact.Stamped := by
  have same := relabel_compact (f := Label.unnumbered) (fun _ _ => rfl) t
  exact ⟨(all_iff_of_relabel same (aged_relabel fun _ => rfl)).mpr h.aged, h.root⟩

/-- The generation after which counting starts again at zero. -/
def lastGeneration : UInt64 := 18446744073709551615

/-- The generation after another is later, unless there is none. -/
theorem lt_nextGeneration {t : Tree} (h : t.generation ≠ lastGeneration) (wanted : UInt64) :
    t.generation < t.nextGeneration wanted := by
  unfold nextGeneration
  split_ifs with le
  · rw [UInt64.lt_iff_toNat_lt, UInt64.toNat_add]
    have := t.generation.toNat_lt
    have : t.generation.toNat ≠ 18446744073709551615 := fun eq => h (UInt64.toNat_inj.mp eq)
    simp only [UInt64.toNat_one]
    omega
  · exact UInt64.not_le.mp le

theorem reparse_stamped {t : Tree} {edit : Edit} {opts : ParseOptions} {r : Reparsed}
    (h : t.reparse edit opts = .ok r) (lossless : t.Lossless) :
    r.tree.generation = t.nextGeneration opts.generation ∧
      (t.generation ≤ t.nextGeneration opts.generation → t.Stamped → r.tree.Stamped) := by
  obtain ⟨text, applied, ⟨_, eq⟩ | ⟨_, n, tree, ⟨p⟩, _, _, eq⟩⟩ := reparse_cases h lossless
  · rw [eq]
    exact ⟨generation_parseIn _ _ _, fun _ _ => parseIn_stamped _ _ _⟩
  · have stamp := p.generation_eq
    rcases eq with eq | eq <;> rw [eq]
    · exact ⟨stamp, fun le h => p.stamped h le⟩
    · exact ⟨stamp, fun le h => compact_stamped (p.stamped h le)⟩

end Tree

/-! ## Places -/

/-- The span of a child. -/
def Part.span : Part → Span
  | .leaf l => l.span
  | .node n => n.span

/-- Spans that follow each other, from one offset to another. -/
def Span.Tile (stop : Nat) : Nat → List Span → Prop
  | start, [] => start = stop
  | start, s :: rest => s.start = start ∧ s.stop = start + s.len ∧ Tile stop (start + s.len) rest

/-- The spans of elements placed one after the other. -/
theorem Element.tile_placed {start : Nat} {es : List Element}
    (h : start + widthOf es ≤ maxOffset) :
    Span.Tile (start + widthOf es) start ((placed start es).map Part.span) := by
  induction es generalizing start with
  | nil => rfl
  | cons e rest ih =>
    have stop : wrapOffset (start + e.width) = start + e.width := by
      rw [widthOf_cons, maxOffset] at h
      exact Nat.mod_eq_of_lt (by omega)
    rw [widthOf_cons, ← Nat.add_assoc] at h ⊢
    cases e with
    | leaf t => exact ⟨rfl, stop, ih h⟩
    | node l children => exact ⟨rfl, stop, ih h⟩

theorem Element.mem_idsOf {es : List Element} {e : Element} {id : Nat} (mem : e ∈ es)
    (h : id ∈ e.ids) : id ∈ idsOf es := by
  obtain ⟨before, after, rfl⟩ := List.append_of_mem mem
  rw [idsOf_append, idsOf]
  simp [h]

/-- If no two nodes share a number, it tells among which of some elements a node is. -/
theorem Element.index_of_mem_ids {es : List Element} {i j id : Nat} {e e' : Element}
    (nodup : (idsOf es).Nodup) (hi : es[i]? = some e) (hj : es[j]? = some e') (he : id ∈ e.ids)
    (he' : id ∈ e'.ids) : i = j := by
  induction es generalizing i j with
  | nil => simp at hi
  | cons first rest ih =>
    obtain ⟨-, others, apart⟩ := List.nodup_append.mp nodup
    cases i with
    | zero =>
      cases j with
      | zero => rfl
      | succ j =>
        obtain rfl := Option.some.inj hi
        exact absurd rfl (apart id he id (mem_idsOf (List.mem_of_getElem? hj) he'))
    | succ i =>
      cases j with
      | zero =>
        obtain rfl := Option.some.inj hj
        exact absurd rfl (apart id he' id (mem_idsOf (List.mem_of_getElem? hi) he))
      | succ j => rw [ih others hi hj]

theorem Element.nodup_of_mem {es : List Element} {e : Element} (nodup : (idsOf es).Nodup)
    (mem : e ∈ es) : e.ids.Nodup := by
  obtain ⟨before, after, rfl⟩ := List.append_of_mem mem
  rw [idsOf_append, idsOf] at nodup
  exact (List.nodup_append.mp (List.nodup_append.mp nodup).2.1).1

namespace Node

/-- The node that is reached by going down from child to child, each given by its place among the
children. -/
def at? (n : Node) : List Nat → Option Node
  | [] => some n
  | i :: rest =>
    match n.parts[i]? with
    | some (.node c) => c.at? rest
    | _ => none

/-- A child node is an element among the others, and starts where those before it end. -/
theorem placed_eq_some {start i : Nat} {es : List Element} {c : Node}
    (h : (placed start es)[i]? = some (.node c)) :
    ∃ before after, es = before ++ c.element :: after ∧ before.length = i ∧
      c.start = start + widthOf before := by
  induction es generalizing start i with
  | nil => simp [placed] at h
  | cons e rest ih =>
    cases i with
    | zero =>
      cases e with
      | leaf t => simp [placed] at h
      | node l children =>
        simp only [placed, List.getElem?_cons_zero, Option.some.injEq, Part.node.injEq] at h
        subst h
        exact ⟨[], rest, rfl, rfl, rfl⟩
    | succ i =>
      have next : (placed (start + e.width) rest)[i]? = some (.node c) := by
        cases e <;> simpa [placed, width] using h
      obtain ⟨before, after, rfl, rfl, eq⟩ := ih next
      exact ⟨e :: before, after, rfl, rfl, by rw [eq, widthOf_cons, Nat.add_assoc]⟩

theorem getElem?_of_placed {start i : Nat} {es : List Element} {c : Node}
    (h : (placed start es)[i]? = some (.node c)) : es[i]? = some c.element := by
  obtain ⟨before, after, rfl, rfl, -⟩ := placed_eq_some h
  simp

theorem at?_cons {n m : Node} {i : Nat} {path : List Nat} (h : n.at? (i :: path) = some m) :
    ∃ c : Node, n.parts[i]? = some (.node c) ∧ c.at? path = some m := by
  rw [at?] at h
  split at h
  next c child => exact ⟨c, child, h⟩
  next => contradiction

theorem all_at? {P : Label → List Element → Prop} {n m : Node} {path : List Nat}
    (h : n.element.All P) (found : n.at? path = some m) : m.element.All P := by
  induction path generalizing n with
  | nil =>
    obtain rfl := Option.some.inj found
    exact h
  | cons i path ih =>
    obtain ⟨c, child, found⟩ := at?_cons found
    have mem := List.mem_of_getElem? (getElem?_of_placed child)
    exact ih (allOf_iff.mp h.2 _ mem) found

/-- A node lies within every node that it is reached from. -/
theorem within_at? {n m : Node} {path : List Nat} (h : n.element.All Measured)
    (found : n.at? path = some m) : m.start + m.label.width ≤ n.start + n.label.width := by
  induction path generalizing n with
  | nil =>
    obtain rfl := Option.some.inj found
    exact Nat.le_refl _
  | cons i path ih =>
    obtain ⟨c, child, found⟩ := at?_cons found
    obtain ⟨before, after, children, -, start⟩ := placed_eq_some child
    obtain ⟨width, inside⟩ := h
    rw [children, allOf_append] at inside
    have within := ih inside.2.1 found
    rw [Measured, children, widthOf_append, widthOf_cons] at width
    have : c.element.width = c.label.width := rfl
    omega

theorem id_mem_at? {n m : Node} {path : List Nat} (found : n.at? path = some m) :
    m.id ∈ n.element.ids := by
  induction path generalizing n with
  | nil =>
    obtain rfl := Option.some.inj found
    exact List.mem_cons_self
  | cons i path ih =>
    obtain ⟨c, child, found⟩ := at?_cons found
    have mem := List.mem_of_getElem? (getElem?_of_placed child)
    exact List.mem_cons_of_mem _ (mem_idsOf mem (ih found))

/-- A node other than the root has a number of its own. -/
theorem id_ne_at? {n m : Node} {i : Nat} {path : List Nat} (nodup : n.element.ids.Nodup)
    (found : n.at? (i :: path) = some m) : m.id ≠ n.id := by
  obtain ⟨c, child, found⟩ := at?_cons found
  intro same
  have mem := mem_idsOf (List.mem_of_getElem? (getElem?_of_placed child)) (id_mem_at? found)
  rw [same] at mem
  exact (List.nodup_cons.mp nodup).1 mem

/-- If no two nodes share a number, a node is reached in one way only. -/
theorem at?_injective {n a b : Node} {p q : List Nat} (nodup : n.element.ids.Nodup)
    (hp : n.at? p = some a) (hq : n.at? q = some b) (same : a.id = b.id) : p = q := by
  induction p generalizing n q with
  | nil =>
    cases q with
    | nil => rfl
    | cons j q =>
      obtain rfl := Option.some.inj hp
      exact absurd same.symm (id_ne_at? nodup hq)
  | cons i p ih =>
    cases q with
    | nil =>
      obtain rfl := Option.some.inj hq
      exact absurd same (id_ne_at? nodup hp)
    | cons j q =>
      obtain ⟨c, child, found⟩ := at?_cons hp
      obtain ⟨c', child', found'⟩ := at?_cons hq
      have below := (List.nodup_cons.mp nodup).2
      have hi := getElem?_of_placed child
      have place : i = j := index_of_mem_ids below hi (getElem?_of_placed child')
        (id_mem_at? found) (same ▸ id_mem_at? found')
      subst place
      obtain rfl : c = c' := by simpa using child.symm.trans child'
      rw [ih (nodup_of_mem below (List.mem_of_getElem? hi)) found found']

end Node

/-! ## Histories -/

/-- A step in the life of a document. -/
inductive Revision where
  /-- The text is edited and read again. -/
  | edit (edit : Edit) (opts : ParseOptions)
  /-- The tree is moved to an arena of its own. -/
  | compact

/-- The text after a step. An edit that is out of range changes nothing. -/
def Revision.apply (text : Bytes) : Revision → Bytes
  | edit e _ =>
    match e.apply text with
    | .ok edited => edited
    | .error _ => text
  | compact => text

namespace Tree

/-- The tree after a step. -/
def revise (t : Tree) : Revision → Tree
  | .edit edit opts =>
    match t.reparse edit opts with
    | .ok r => r.tree
    | .error _ => t
  | .compact => t.compact

/-- The tree after some steps. -/
def revisions (t : Tree) (steps : List Revision) : Tree := steps.foldl revise t

/-- Only edits that are in range are made. -/
theorem reparse_isOk (t : Tree) (edit : Edit) (opts : ParseOptions) :
    (∃ r, t.reparse edit opts = .ok r) ↔ edit.start + edit.oldLen ≤ t.text.length := by
  unfold reparse Edit.apply
  split_ifs with long
  · simp only [bind, Except.bind]
    constructor
    · rintro ⟨r, h⟩
      contradiction
    · omega
  · refine ⟨fun _ => by omega, fun _ => ?_⟩
    simp only [bind, Except.bind]
    split <;> exact ⟨_, rfl⟩

/-- A step keeps the text and the tree together. -/
theorem revise_lossless {t : Tree} (h : t.Lossless) (step : Revision) :
    (t.revise step).Lossless ∧ (t.revise step).text = step.apply t.text := by
  cases step with
  | compact => exact ⟨compact_lossless h, rfl⟩
  | edit edit opts =>
    simp only [revise, Revision.apply]
    cases read : t.reparse edit opts with
    | ok r =>
      obtain ⟨lossless, applied⟩ := reparse_lossless read h
      rw [applied]
      exact ⟨lossless, rfl⟩
    | error e =>
      have out : ¬ edit.start + edit.oldLen ≤ t.text.length := by
        rw [← reparse_isOk t edit opts]
        rintro ⟨r, ok⟩
        rw [read] at ok
        contradiction
      rw [Edit.apply, if_pos (by omega)]
      exact ⟨h, rfl⟩

theorem revisions_lossless {t : Tree} (h : t.Lossless) (steps : List Revision) :
    (t.revisions steps).Lossless ∧
      (t.revisions steps).text = steps.foldl Revision.apply t.text := by
  induction steps generalizing t with
  | nil => exact ⟨h, rfl⟩
  | cons step rest ih =>
    obtain ⟨lossless, text⟩ := revise_lossless h step
    rw [List.foldl_cons, ← text]
    exact ih lossless

theorem revise_stamped {t : Tree} (lossless : t.Lossless) (h : t.Stamped)
    (counts : t.generation ≠ lastGeneration) (step : Revision) : (t.revise step).Stamped := by
  cases step with
  | compact => exact compact_stamped h
  | edit edit opts =>
    simp only [revise]
    cases read : t.reparse edit opts with
    | ok r => exact (reparse_stamped read lossless).2 (UInt64.le_of_lt (lt_nextGeneration counts _)) h
    | error e => exact h

theorem revisions_stamped {t : Tree} (lossless : t.Lossless) (h : t.Stamped)
    (steps : List Revision)
    (counts : ∀ k < steps.length, (t.revisions (steps.take k)).generation ≠ lastGeneration) :
    (t.revisions steps).Stamped := by
  induction steps generalizing t with
  | nil => exact h
  | cons step rest ih =>
    refine ih (revise_lossless lossless step).1 (revise_stamped lossless h ?_ step) fun k lt => ?_
    · exact counts 0 (Nat.zero_lt_succ _)
    · exact counts (k + 1) (Nat.succ_lt_succ lt)

theorem Lossless.width {t : Tree} (h : t.Lossless) (fits : t.text.length ≤ maxOffset) :
    t.element.All Measured ∧ t.label.width = t.text.length := by
  have measured : t.element.All Measured := h.measured.resolve_right (by omega)
  refine ⟨measured, ?_⟩
  rw [← h.text]
  exact width_eq measured

/-- The children of a node of a lossless tree tile its span. -/
theorem Lossless.tile {t : Tree} (h : t.Lossless) (fits : t.text.length ≤ maxOffset)
    {path : List Nat} {n : Node} (found : t.root.at? path = some n) :
    n.label.width = widthOf n.children ∧
      Span.Tile n.span.stop n.span.start (n.parts.map Part.span) := by
  obtain ⟨measured, whole⟩ := h.width fits
  have within : n.start + n.label.width ≤ 0 + t.label.width := Node.within_at? (n := t.root) measured found
  have width : n.label.width = widthOf n.children := (Node.all_at? (n := t.root) measured found).1
  have stop : n.span.stop = n.start + widthOf n.children := by
    rw [← width]
    refine Nat.mod_eq_of_lt ?_
    simp only [Node.span, maxOffset] at fits ⊢
    omega
  rw [stop]
  exact ⟨width, tile_placed (by omega)⟩

/-- However a document is edited, its tree holds the text that the edits make. The children of each
node tile its span, no node is reached in two ways, and as long as generations can be counted, each
edit makes a later one and no node is newer than its parent. -/
theorem history_lossless (text : Bytes) (opts : ParseOptions) (steps : List Revision) :
    let t := (parse text opts).revisions steps
    (t.root.text = t.text ∧ t.text = steps.foldl Revision.apply text) ∧
    (t.text.length ≤ maxOffset →
      t.root.span = ⟨0, t.text.length⟩ ∧
      ∀ path n, t.root.at? path = some n →
        n.label.width = widthOf n.children ∧
          Span.Tile n.span.stop n.span.start (n.parts.map Part.span)) ∧
    (∀ p q a b, t.root.at? p = some a → t.root.at? q = some b → a.id = b.id → p = q) ∧
    (∀ edit opts, (∃ r, t.reparse edit opts = .ok r) ↔
      edit.start + edit.oldLen ≤ t.text.length) ∧
    (t.generation ≠ lastGeneration →
      ∀ edit opts r, t.reparse edit opts = .ok r → t.generation < r.tree.generation) ∧
    ((∀ k < steps.length, ((parse text opts).revisions (steps.take k)).generation ≠ lastGeneration) →
      ∀ (path : List Nat) (n : Node) (i : Nat) (c : Node), t.root.at? path = some n →
        n.parts[i]? = some (.node c) → c.label.generation ≤ n.label.generation) := by
  intro t
  have first : (parse text opts).Lossless := parseIn_lossless _ _ _
  obtain ⟨lossless, text_eq⟩ : t.Lossless ∧ _ := revisions_lossless first steps
  refine ⟨⟨lossless.text, ?_⟩, fun fits => ⟨?_, fun path n => lossless.tile fits⟩, ?_,
    reparse_isOk t, ?_, ?_⟩
  · rw [text_eq, parse, text_parseIn]
  · rw [root, Node.span, (lossless.width fits).2]
  · intro p q a b hp hq
    exact Node.at?_injective (n := t.root) lossless.nodup hp hq
  · intro counts edit opts r read
    rw [(reparse_stamped read lossless).1]
    exact lt_nextGeneration counts _
  · intro counts path n i c found child
    have stamped := revisions_stamped first (parseIn_stamped _ _ _) steps counts
    have aged : n.element.All Aged := Node.all_at? (n := t.root) stamped.aged found
    exact aged.1 c.label c.children (List.mem_of_getElem? (Node.getElem?_of_placed child))

/-- A field is renamed, an edit beyond the end is refused, and the tree is moved. -/
theorem history_lossless_record :
    let steps : List Revision := [.edit ⟨15, 1, "bc"⟩ {}, .edit ⟨30, 1, "d"⟩ {}, .compact]
    let t := (parse "record R { int a; }").revisions steps
    t.text = "record R { int bc; }" ∧ t.root.span = ⟨0, 20⟩ ∧
      (∀ k < 3, ((parse "record R { int a; }").revisions (steps.take k)).generation ≠
        lastGeneration) ∧
      (∀ (path : List Nat) (n : Node) (i : Nat) (c : Node), t.root.at? path = some n →
        n.parts[i]? = some (.node c) → c.label.generation ≤ n.label.generation) := by
  intro steps t
  obtain ⟨⟨_, text⟩, spans, _, _, _, aged⟩ := history_lossless "record R { int a; }" {} steps
  have text' : t.text = "record R { int bc; }" := text.trans (by decide)
  have counts : ∀ k < 3, ((parse "record R { int a; }").revisions (steps.take k)).generation ≠
      lastGeneration := by decide +kernel
  refine ⟨text', ?_, counts, aged counts⟩
  have fits : t.text.length ≤ maxOffset := by
    rw [text']
    decide
  rw [(spans fits).1, show ((parse "record R { int a; }" {}).revisions steps).text = _ from text']
  decide

end Tree

end AvroIdl
