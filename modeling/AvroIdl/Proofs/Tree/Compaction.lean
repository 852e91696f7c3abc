import AvroIdl.Proofs.Tree.Formed
import Mathlib.Data.List.Perm.Subperm

/-!
# Compaction

An arena counts the nodes and leaves that were ever made in it. A tree is packed, `Tree.Packed`, if
its arena holds the tree and nothing else: so is a tree that has just been compacted or read from
the start. Since a tree that is sparse after an edit is compacted, an arena never outgrows its tree
by much.

* `Machine.Stores.step`: the parser makes no node that it does not keep;
* `Tree.look_compact`: node for node, compaction changes numbers only;
* `Tree.revisions_dense`: however a document is edited, its arena stays in proportion to its tree.
-/

namespace AvroIdl

open Element

namespace Element

/-- An arena that holds some elements besides what another holds. -/
def storedIn (arena : Arena) (es : List Element) : Arena :=
  ⟨arena.nodes + nodeCountOf es, arena.leaves + (tokensOf es).length⟩

@[simp] theorem nodeCountOf_append (as bs : List Element) :
    nodeCountOf (as ++ bs) = nodeCountOf as + nodeCountOf bs := by
  induction as with
  | nil => simp [nodeCountOf]
  | cons e rest ih => rw [List.cons_append, nodeCountOf, nodeCountOf, ih, Nat.add_assoc]

theorem storedIn_append (arena : Arena) (as bs : List Element) :
    storedIn arena (as ++ bs) = storedIn (storedIn arena as) bs := by
  simp [storedIn, Nat.add_assoc]

theorem storedIn_leaf (arena : Arena) (es : List Element) (t : Token) :
    storedIn arena (es ++ [Element.leaf t]) = (storedIn arena es).addLeaf := by
  simp [storedIn, Arena.addLeaf, nodeCountOf, nodeCount, tokensOf, tokens, Nat.add_assoc]

/-- A node around elements takes one more place. -/
theorem storedIn_node (arena : Arena) (before inside after : List Element) (l : Label) :
    storedIn arena (before ++ [Element.node l inside] ++ after) =
      (storedIn arena (before ++ inside ++ after)).addNode := by
  simp only [storedIn, Arena.addNode, nodeCountOf_append, tokensOf_append, nodeCountOf, nodeCount,
    tokensOf, tokens, List.append_nil, Arena.mk.injEq, and_true]
  omega

theorem storedIn_singleton (arena : Arena) (children : List Element) (l : Label) :
    storedIn arena [.node l children] = (storedIn arena children).addNode := by
  simpa using storedIn_node arena [] children [] l

mutual

/-- A copy is stored in full, and nothing else is. -/
theorem copy_arena (arena : Arena) (e : Element) : (e.copy arena).1 = storedIn arena [e] := by
  cases e with
  | leaf t => rfl
  | node l children =>
    have inside := copyAll_arena arena children
    rw [storedIn_singleton, ← inside]
    rfl

theorem copyAll_arena (arena : Arena) (es : List Element) :
    (copyAll arena es).1 = storedIn arena es := by
  cases es with
  | nil => rfl
  | cons e rest =>
    have first := copy_arena arena e
    have others := copyAll_arena (e.copy arena).1 rest
    rw [first] at others
    rw [← List.singleton_append, storedIn_append, ← others]
    simp only [List.singleton_append, copyAll, first]

end

mutual

theorem length_leavesFrom (start : Nat) (e : Element) :
    (e.leavesFrom start).length = e.tokens.length := by
  cases e with
  | leaf t => rfl
  | node l children => exact length_leavesFromAll start children

theorem length_leavesFromAll (start : Nat) (es : List Element) :
    (leavesFromAll start es).length = (tokensOf es).length := by
  cases es with
  | nil => rfl
  | cons e rest =>
    rw [leavesFromAll, tokensOf, List.length_append, List.length_append, length_leavesFrom start e,
      length_leavesFromAll _ rest]

end

mutual

theorem length_ids (e : Element) : e.ids.length = e.nodeCount := by
  cases e with
  | leaf t => rfl
  | node l children => rw [ids, List.length_cons, length_idsOf children, nodeCount]

theorem length_idsOf (es : List Element) : (idsOf es).length = nodeCountOf es := by
  cases es with
  | nil => rfl
  | cons e rest => rw [idsOf, List.length_append, length_ids e, length_idsOf rest, nodeCountOf]

end

end Element

/-! ## The parser keeps what it makes -/

namespace Machine

variable {arena : Arena} {m : Machine}

/-- The parser has kept all that it made since its arena was `arena`. -/
def Stores (arena : Arena) (m : Machine) : Prop := m.arena = storedIn arena m.elements

theorem Stores.act (h : m.Stores arena) {a : Action} (enabled : a.Enabled m) :
    (m.act a).Stores arena := by
  have outer (inner : m.frames.tail ≠ []) : m.frames ≠ [] := fun none => inner (by rw [none]; rfl)
  unfold Stores at h ⊢
  cases a with
  | begin kind error =>
    rw [Machine.act, elements_begin enabled, ← h]
    exact m.arena_flush
  | become kind =>
    have same : (m.become kind).elements = m.elements := elements_onTop fun _ => rfl
    rw [Machine.act, same, ← h]
    exact m.arena_onTop _
  | becomeError error =>
    have same : (m.becomeError error).elements = m.elements := elements_onTop fun _ => rfl
    rw [Machine.act, same, ← h]
    exact m.arena_onTop _
  | wrapLast kind =>
    obtain ⟨_, f, top, l, children, others, hc, _⟩ := enabled
    obtain ⟨below, hm⟩ : ∃ below, m.frames = f :: below := List.head?_eq_some_iff.mp top
    rw [Machine.act, elements_wrapLast hm (by simp [hc]), ← h]
    simp [wrapLast, hm, hc]
  | take t =>
    rw [Machine.act, elements_take (outer enabled), storedIn_leaf, ← h]
    simp [take]
  | takeName t =>
    rw [Machine.act, elements_takeName (outer enabled.1), storedIn_leaf, ← h]
    simp [takeName, take]
  | close =>
    obtain ⟨f, g, below, hm, _⟩ := close_frames enabled
    obtain ⟨before, after⟩ := elements_close hm
    rw [Machine.act, after, ended, storedIn_node, ← before, ← h]
    simp [close, hm]

theorem Stores.perform (h : m.Stores arena) {actions : List Action}
    (performs : m.Performs actions) : (m.perform actions).Stores arena := by
  induction actions generalizing m with
  | nil => exact h
  | cons a rest ih => exact ih (h.act performs.1) performs.2

/-- The parser makes no node that it does not keep. -/
theorem Stores.step {origin : Origin} {base : Body} (h : m.Stores arena)
    (aligned : m.Aligned origin base) (t : Token) : (m.step t).Stores arena := by
  rw [step_eq]
  exact h.perform (aligned.performs t)

theorem Stores.hold (h : m.Stores arena) (t : Token) : (m.hold t).Stores arena := by
  have leaf : m.arena.addLeaf = storedIn arena (m.elements ++ [Element.leaf t]) := by
    rw [storedIn_leaf, ← h]
  unfold Stores Machine.hold
  split
  · simpa [elements] using leaf
  -- A malformed token is stored together with the node that reports it.
  next cause _ =>
    have around := storedIn_node arena m.elements [.leaf t] []
    simp only [List.append_nil] at around
    simp only [elements, ← List.append_assoc]
    rw [show Frame.listed m.frames ++ m.pending = m.elements from rfl, around, ← leaf]

theorem Stores.receive (h : m.Stores arena) (l : Lexeme) : (m.receive l).Stores arena := by
  unfold Machine.receive
  induction l.leading generalizing m with
  | nil => exact h
  | cons t rest ih => exact ih (h.hold t)

end Machine

theorem Reading.stores_reaches {base : Body} {arena : Arena} {r r' : Reading} (way : Reaches r r')
    (aligned : r.machine.Aligned .any base) (h : r.machine.Stores arena) :
    r'.machine.Aligned .any base ∧ r'.machine.Stores arena := by
  induction way with
  | refl => exact ⟨aligned, h⟩
  | @tail r₁ r₂ _ next ih =>
    have stores := ih.2.step ih.1 r₁.token
    have aligned := ih.1.step r₁.token fun _ _ _ => trivial
    cases next with
    | stay => exact ⟨aligned, stores⟩
    | move => exact ⟨aligned.receive _, stores.receive _⟩

namespace Tree

/-! ## Packed trees -/

/-- The arena of a tree holds its nodes and leaves, and nothing else. -/
def Packed (t : Tree) : Prop := t.arena = ⟨t.reachable, t.element.tokens.length⟩

theorem packed_iff {t : Tree} : t.Packed ↔ t.arena = storedIn {} [t.element] := by
  simp [Packed, reachable, storedIn, nodeCountOf, tokensOf]

/-- A tree that is read from the start leaves nothing else behind. -/
theorem parse_packed (text : Bytes) (opts : ParseOptions) : (parse text opts).Packed := by
  by_cases long : (opts.maxSize < text.length || maxOffset < text.length) = true
  · rw [parse, parseIn, if_pos long]
    rfl
  · simp only [Bool.or_eq_true, decide_eq_true_eq, not_or] at long
    obtain ⟨t, way, -⟩ := Machine.document_reaches {} opts.generation text
    obtain ⟨-, first⟩ := Machine.sound_ofText .document {} opts.generation 0 text
    have begun : (Reading.ofText (Machine.start {} opts.generation 0 [.items .document, .leftovers])
        text).machine.Stores {} := by
      obtain ⟨l, ls, hl, -⟩ := lexemes_eq_cons text
      rw [Reading.ofText, hl]
      exact Machine.Stores.receive (by rfl) l
    obtain ⟨-, stores⟩ := Reading.stores_reaches way first.aligned begun
    rw [packed_iff, parse, parseIn_eq {} (Nat.not_lt.mp long.1) (Nat.not_lt.mp long.2)]
    exact (congrArg Arena.addNode stores).trans (storedIn_singleton {} _ _).symm

theorem compact_reachable (t : Tree) : t.compact.reachable = t.reachable := by
  rw [reachable, ← nodeCount_relabel Label.unnumbered, relabel_compact fun _ _ => rfl,
    nodeCount_relabel, reachable]

/-- A tree that is compacted leaves all else behind. -/
theorem compact_packed (t : Tree) : t.compact.Packed := by
  have arena : t.compact.arena = storedIn {} [t.element] := copy_arena {} t.element
  rw [Packed, compact_reachable, compact_tokens, arena]
  simp [storedIn, reachable, nodeCountOf, tokensOf]

/-- The numbers of a compacted tree are used up: there is a node for each. -/
theorem perm_ids_compact (t : Tree) : t.compact.element.ids.Perm (List.range' 1 t.reachable) := by
  obtain ⟨nodup, bounds⟩ := numbered_compact t
  have nodes : t.compact.arena.nodes = t.reachable := by rw [compact_packed, compact_reachable]
  have length : t.compact.element.ids.length = t.reachable := by
    rw [length_ids, ← compact_reachable, reachable]
  simp only [idsOf, List.append_nil] at nodup bounds
  refine (List.Nodup.subperm nodup fun id mem => ?_).perm_of_length_le
    (by rw [length, List.length_range'])
  have := bounds id mem
  rw [List.mem_range'_1]
  omega

end Tree

/-! ## What compaction keeps -/

namespace Node

/-- What a node shows at its place: all but its number. -/
structure Look where
  kind : NodeKind
  span : Span
  name : Option Leaf
  hasError : Bool
  error : Option SyntaxError
  generation : UInt64
  /-- The spans of the children. -/
  parts : List Span
  leaves : List Leaf
  allLeaves : List Leaf

def look (n : Node) : Look where
  kind := n.kind
  span := n.span
  name := n.name?
  hasError := n.hasError
  error := n.label.error
  generation := n.label.generation
  parts := n.parts.map Part.span
  leaves := n.leaves
  allLeaves := n.allLeaves

theorem look_unnumbered (n : Node) : (n.relabel Label.unnumbered).look = n.look := by
  have width (l : Label) : l.unnumbered.width = l.width := rfl
  have parts : (n.relabel Label.unnumbered).parts.map Part.span = n.parts.map Part.span := by
    rw [parts_relabel width, List.map_map]
    congr 1
    funext part
    cases part <;> rfl
  rw [look, parts, leaves_relabel width, allLeaves_relabel width,
    name?_relabel width n fun _ => rfl]
  rfl

theorem at?_relabel {f : Label → Label} (width : ∀ l, (f l).width = l.width) (n : Node)
    (path : List Nat) : (n.relabel f).at? path = (n.at? path).map (relabel f) := by
  induction path generalizing n with
  | nil => rfl
  | cons i path ih =>
    rw [at?, at?, parts_relabel width, List.getElem?_map]
    cases n.parts[i]? with
    | none => rfl
    | some part =>
      cases part with
      | leaf l => rfl
      | node c => exact ih c

end Node

namespace Tree

/-- Node for node, compaction changes nothing but numbers. -/
theorem look_compact (t : Tree) (path : List Nat) :
    (t.compact.root.at? path).map Node.look = (t.root.at? path).map Node.look := by
  have root : t.compact.root.relabel Label.unnumbered = t.root.relabel Label.unnumbered := by
    have same := relabel_compact (f := Label.unnumbered) (fun _ _ => rfl) t
    simp only [element, Element.relabel, Element.node.injEq, relabelOf_eq_map] at same
    simp only [Tree.root, Node.relabel, same]
  have strip (n : Node) : ((n.relabel Label.unnumbered).at? path).map Node.look =
      (n.at? path).map Node.look := by
    rw [Node.at?_relabel (f := Label.unnumbered) fun _ => rfl, Option.map_map]
    exact congrArg (Option.map · _) (funext Node.look_unnumbered)
  rw [← strip, root, strip]

/-! ## The growth of arenas -/

/-- An arena is small, or holds fewer than four times as many nodes as its tree. -/
def Dense (t : Tree) : Prop := t.arena.slots < max 1024 (4 * t.reachable)

theorem Packed.dense {t : Tree} (h : t.Packed) : t.Dense := by
  have root : 0 < t.reachable := Nat.succ_pos _
  have slots : t.arena.slots = t.reachable + 1 := by rw [h]; rfl
  rw [Dense]
  omega

/-- Wherever the nodes of attempts that failed made an arena sparse, the tree leaves it. -/
theorem reparse_dense {t : Tree} {edit : Edit} {opts : ParseOptions} {r : Reparsed}
    (h : t.reparse edit opts = .ok r) : r.tree.Dense := by
  unfold reparse at h
  cases applied : edit.apply t.text with
  | error e => simp [applied, bind, Except.bind] at h
  | ok text =>
    simp only [applied, bind, Except.bind] at h
    split at h
    next n tree partly =>
      obtain rfl := Except.ok.inj h
      dsimp only
      split_ifs with sparse
      · exact tree.compact_packed.dense
      · simp only [isSparse, Bool.and_eq_true, decide_eq_true_eq] at sparse
        rw [Dense]
        omega
    next =>
      obtain rfl := Except.ok.inj h
      exact (parse_packed _ _).dense

theorem revise_dense {t : Tree} (h : t.Dense) (step : Revision) : (t.revise step).Dense := by
  cases step with
  | compact => exact t.compact_packed.dense
  | edit edit opts =>
    simp only [revise]
    cases read : t.reparse edit opts with
    | ok r => exact reparse_dense read
    | error e => exact h

theorem revisions_dense {t : Tree} (h : t.Dense) (steps : List Revision) :
    (t.revisions steps).Dense := by
  induction steps generalizing t with
  | nil => exact h
  | cons step rest ih => exact ih (revise_dense h step)

/-- Compaction keeps all of a tree but its numbers, and an arena that holds just the tree. However a
document is edited, at most three quarters of a large arena are nodes that its tree has left. -/
theorem compact_invisible :
    (∀ t : Tree,
      t.compact.text = t.text ∧ t.compact.generation = t.generation ∧
        t.compact.reachable = t.reachable ∧
        (∀ path, (t.compact.root.at? path).map Node.look = (t.root.at? path).map Node.look) ∧
        t.compact.arena = ⟨t.reachable, t.root.allLeaves.length⟩ ∧
        t.compact.element.ids.Perm (List.range' 1 t.reachable)) ∧
      ∀ (text : Bytes) (opts : ParseOptions) (steps : List Revision),
        let t := (parse text opts).revisions steps
        t.arena.slots < max 1024 (4 * t.reachable) := by
  refine ⟨fun t => ⟨rfl, rfl, t.compact_reachable, t.look_compact, ?_, t.perm_ids_compact⟩, ?_⟩
  · rw [compact_packed, compact_reachable, compact_tokens]
    exact congrArg _ (length_leavesFromAll 0 t.children).symm
  · intro text opts steps
    exact revisions_dense (parse_packed text opts).dense steps

end Tree

end AvroIdl
