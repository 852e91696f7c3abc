import AvroIdl.Proofs.Tree.History

/-!
# What an edit leaves alone

When one statement of a tree is read again, the nodes around it are made anew and all others are
shared: the same nodes stand at the same places, and those behind the statement start as much later
as the text has grown. `Node.Spliced` says so from the root down, `Hole.spliced_fill` finds it in a
tree whose holes were filled anew, and `Tree.reparse_shares` reads off what it means for every node.
-/

namespace AvroIdl

open Element

/-- Two ways to pick an element of a list: the second is before the first, the same, or behind. -/
theorem append_cons_cases {α : Type} {xs ys xs' ys' : List α} {x y : α}
    (h : xs ++ x :: ys = xs' ++ y :: ys') :
    (∃ mid, xs = xs' ++ y :: mid ∧ ys' = mid ++ x :: ys) ∨ (xs = xs' ∧ x = y ∧ ys = ys') ∨
      ∃ mid, xs' = xs ++ x :: mid ∧ ys = mid ++ y :: ys' := by
  rcases List.append_eq_append_iff.mp h with ⟨_ | ⟨z, mid⟩, rfl, eq⟩ | ⟨_ | ⟨z, mid⟩, rfl, eq⟩
  · obtain ⟨rfl, rfl⟩ := List.cons.inj eq
    exact .inr (.inl ⟨(List.append_nil _).symm, rfl, rfl⟩)
  · obtain ⟨rfl, rfl⟩ := List.cons.inj eq
    exact .inr (.inr ⟨mid, rfl, rfl⟩)
  · obtain ⟨rfl, rfl⟩ := List.cons.inj eq
    exact .inr (.inl ⟨List.append_nil _, rfl, rfl⟩)
  · obtain ⟨rfl, rfl⟩ := List.cons.inj eq
    exact .inl ⟨mid, rfl, rfl⟩

namespace Node

/-! ## Going down -/

theorem placed_append_cons (start : Nat) (before after : List Element) (c : Node) :
    (placed start (before ++ c.element :: after))[before.length]? =
      some (.node { c with start := start + widthOf before }) := by
  induction before generalizing start with
  | nil => simp [placed, Node.element]
  | cons e rest ih =>
    rw [widthOf_cons, ← Nat.add_assoc, ← ih]
    cases e <;> simp [placed, width]

theorem at?_child {start : Nat} {before : List Element} {c : Node}
    (place : c.start = start + widthOf before) (l : Label) (after : List Element) (path : List Nat) :
    at? ⟨start, l, before ++ c.element :: after⟩ (before.length :: path) = c.at? path := by
  rw [at?, parts, placed_append_cons, ← place]

theorem eq_of_element {a b : Node} (same : a.element = b.element) (start : a.start = b.start) :
    a = b := by
  obtain ⟨label, children⟩ := Element.node.inj same
  cases a
  cases b
  simp_all

theorem start_le_at? {n m : Node} {path : List Nat} (found : n.at? path = some m) :
    n.start ≤ m.start := by
  induction path generalizing n with
  | nil =>
    obtain rfl := Option.some.inj found
    exact Nat.le_refl _
  | cons i path ih =>
    obtain ⟨c, child, found⟩ := at?_cons found
    obtain ⟨before, after, -, -, start⟩ := placed_eq_some child
    have later := ih found
    omega

/-- A node that is moved takes what is below it along. -/
theorem at?_moved {n m : Node} {path : List Nat} (found : n.at? path = some m) (start : Nat) :
    ∃ m', at? { n with start } path = some m' ∧ m'.label = m.label ∧ m'.children = m.children ∧
      m'.start + n.start = m.start + start := by
  induction path generalizing n start with
  | nil =>
    obtain rfl := Option.some.inj found
    exact ⟨_, rfl, rfl, rfl, Nat.add_comm _ _⟩
  | cons i path ih =>
    obtain ⟨c, child, below⟩ := at?_cons found
    obtain ⟨before, after, children, rfl, place⟩ := placed_eq_some child
    obtain ⟨m', found', label, inside, moved⟩ := ih below (start + widthOf before)
    refine ⟨m', ?_, label, inside, by omega⟩
    rw [children]
    exact (at?_child (c := { c with start := start + widthOf before }) rfl ..).trans found'

/-! ## One node in the place of another -/

/-- The second node is the first with `new` in the place of `old`, which is reached along a way. The
nodes on the way are made anew, and nothing else changes. -/
inductive Spliced (generation : UInt64) (edit : Edit) (old new : Node) : List Nat → Node → Node → Prop
  | here : Spliced generation edit old new [] old new
  | inside {path : List Nat} {c c' : Node} {start : Nat} {l l' : Label} {before after : List Element}
    (inner : Spliced generation edit old new path c c') (place : c.start = start + widthOf before)
    (place' : c'.start = start + widthOf before) (kind : l'.kind = l.kind) (name : l'.name = l.name)
    (now : l'.generation = generation) (width : (l'.width : Int) = l.width + edit.delta) :
    Spliced generation edit old new (before.length :: path) ⟨start, l, before ++ c.element :: after⟩
      ⟨start, l', before ++ c'.element :: after⟩

namespace Spliced

variable {generation : UInt64} {edit : Edit} {old new a a' : Node} {path q : List Nat}

theorem at? (h : Spliced generation edit old new path a a') :
    a.at? path = some old ∧ a'.at? path = some new := by
  induction h with
  | here => exact ⟨rfl, rfl⟩
  | inside _ place place' _ _ _ _ ih => rwa [at?_child place, at?_child place']

theorem width_eq (h : Spliced generation edit old new path a a')
    (whole : (new.label.width : Int) = old.label.width + edit.delta) :
    (a'.label.width : Int) = a.label.width + edit.delta := by
  cases h with
  | here => exact whole
  | inside _ _ _ _ _ _ width => exact width

/-- The nodes on the way keep their kind, their name and the number of their children. -/
theorem around (h : Spliced generation edit old new path a a') (before : q <+: path)
    (proper : q ≠ path) :
    ∃ b b', a.at? q = some b ∧ a'.at? q = some b' ∧ b'.kind = b.kind ∧ b'.label.name = b.label.name ∧
      b'.children.length = b.children.length ∧ b'.start = b.start ∧
      b'.label.generation = generation := by
  induction h generalizing q with
  | here => exact absurd (List.prefix_nil.mp before) proper
  | inside _ place place' kind name now _ ih =>
    cases q with
    | nil => exact ⟨_, _, rfl, rfl, kind, name, by simp, rfl, now⟩
    | cons i q =>
      obtain ⟨rfl, shorter⟩ := List.cons_prefix_cons.mp before
      rw [at?_child place, at?_child place']
      exact ih shorter (fun eq => proper (eq ▸ rfl))

/-- Every node that is neither on the way nor below its end stays, before the end of the way where it
is and behind it as far off as the text has grown. -/
theorem beside (h : Spliced generation edit old new path a a') (measured : a.element.All Measured)
    (whole : (new.label.width : Int) = old.label.width + edit.delta) (above : ¬ q <+: path)
    (below : ¬ path <+: q) {m : Node} (found : a.at? q = some m) :
    ∃ m', a'.at? q = some m' ∧ m'.label = m.label ∧ m'.children = m.children ∧
      (m.start + m.label.width ≤ old.start ∧ m'.start = m.start ∨
        old.start + old.label.width ≤ m.start ∧ (m'.start : Int) = m.start + edit.delta) := by
  induction h generalizing q with
  | here => exact absurd List.nil_prefix below
  | @inside path c c' start l l' before after inner place place' _ _ _ _ ih =>
    cases q with
    | nil => exact absurd List.nil_prefix above
    | cons i q =>
      obtain ⟨d, child, reached⟩ := at?_cons found
      obtain ⟨front, back, split, rfl, there⟩ := placed_eq_some child
      change before ++ c.element :: after = front ++ d.element :: back at split
      change d.start = start + widthOf front at there
      have parts := measured.2
      have inside : c.element.All Measured := allOf_iff.mp parts _ (by simp)
      have within := within_at? inside inner.at?.1
      have later := start_le_at? inner.at?.1
      have inside' : d.element.All Measured := allOf_iff.mp parts _ (by
        rw [split]
        simp)
      have within' := within_at? inside' reached
      have later' := start_le_at? reached
      rcases append_cons_cases split with ⟨mid, rfl, rfl⟩ | ⟨rfl, same, rfl⟩ | ⟨mid, rfl, rfl⟩
      · -- The child is in front of the one that changes.
        refine ⟨m, ?_, rfl, rfl, .inl ⟨?_, rfl⟩⟩
        · rw [List.append_assoc, List.cons_append, at?_child there]
          exact reached
        · have : d.element.width = d.label.width := rfl
          rw [widthOf_append, widthOf_cons] at place
          omega
      · obtain rfl : c = d := eq_of_element same (place.trans there.symm)
        rw [at?_child place']
        refine ih inside (fun before => above ?_) (fun before => below ?_) reached
        · exact List.cons_prefix_cons.mpr ⟨rfl, before⟩
        · exact List.cons_prefix_cons.mpr ⟨rfl, before⟩
      · -- The child is behind the one that changes, which is wider now.
        have grown := inner.width_eq whole
        have : c.element.width = c.label.width := rfl
        have : c'.element.width = c'.label.width := rfl
        rw [widthOf_append, widthOf_cons] at there
        obtain ⟨m', found', label, children, moved⟩ :=
          at?_moved reached (start + widthOf (before ++ c'.element :: mid))
        refine ⟨m', ?_, label, children, .inr ⟨by omega, ?_⟩⟩
        · have length : (before ++ c.element :: mid).length =
              (before ++ c'.element :: mid).length := by simp
          have apart : before ++ c'.element :: (mid ++ d.element :: back) =
              (before ++ c'.element :: mid) ++ d.element :: back := by simp
          rw [apart, length]
          exact (at?_child (c := { d with start := _ }) rfl ..).trans found'
        · rw [widthOf_append, widthOf_cons] at moved
          omega

end Spliced

end Node

namespace Hole

/-- The way from the outermost of some holes to the missing child. -/
def address : List Hole → List Nat
  | [] => []
  | h :: outer => address outer ++ [h.before.length]

theorem spliced_fill {generation : UInt64} {edit : Edit} {old new a a' : Node} {path : List Nat}
    {holes : List Hole} (h : Node.Spliced generation edit old new path a a')
    (measured : (fill a.element holes).All Measured) (start : a.start = offset holes)
    (start' : a'.start = offset holes) (inside : edit.oldLen ≤ a.label.width)
    (width : a'.label.width = edit.resize a.label.width) (nodes : Nat) :
    ∃ b b' : Node, b.element = fill a.element holes ∧ b.start = 0 ∧
      b'.element = fill a'.element (renew generation edit nodes a'.element holes) ∧ b'.start = 0 ∧
      Node.Spliced generation edit old new (address holes ++ path) b b' := by
  induction holes generalizing a a' path nodes with
  | nil => exact ⟨a, a', rfl, start, rfl, start', h⟩
  | cons hole outer ih =>
    obtain ⟨sum, -⟩ : (hole.plug a.element).All Measured := all_fill measured
    simp only [Measured, children, widthOf_append, widthOf_cons] at sum
    have : a.element.width = a.label.width := rfl
    have fits : edit.oldLen ≤ hole.label.width := by omega
    have grown : (edit.resize hole.label.width : Int) = hole.label.width + edit.delta := by
      simp only [Edit.resize, Edit.delta]
      omega
    have step : Node.Spliced generation edit old new (hole.before.length :: path)
        ⟨offset outer, hole.label, hole.children a.element⟩
        ⟨offset outer, (hole.anew generation edit nodes a'.element).label,
          hole.children a'.element⟩ := .inside h start start' rfl rfl rfl grown
    rw [address, List.append_assoc]
    exact ih step measured rfl rfl fits rfl (nodes + 1)

end Hole

namespace Tree

/-- What is known of a tree in which one statement was read again, as long as it stays in its
arena. -/
theorem reparse_patch {t : Tree} {edit : Edit} {opts : ParseOptions} {r : Reparsed}
    (h : t.reparse edit opts = .ok r) (lossless : t.Lossless) (partly : r.full = false)
    (kept : r.compacted = false) :
    ∃ text n, Nonempty (Patch (t.nextGeneration opts.generation) edit text t.arena.nodes t.element n
      r.tree) ∧ r.kind = n.kind ∧ r.span = ⟨n.start, edit.resize n.label.width⟩ := by
  unfold reparse at h
  cases applied : edit.apply t.text with
  | error e => simp [applied, bind, Except.bind] at h
  | ok text =>
    simp only [applied, bind, Except.bind] at h
    split at h
    next n tree found =>
      split_ifs at found
      obtain rfl := Except.ok.inj h
      dsimp only at kept ⊢
      rw [kept]
      refine ⟨text, n, ?_, rfl, rfl⟩
      exact (rebuilt_of_reparseAlong found).patch (leads_pathAt t edit.start) lossless.nodup
    next =>
      obtain rfl := Except.ok.inj h
      contradiction

/-- The tree after a statement was read again is the one before it, with the new statement in the
place of the old one. -/
theorem Patch.spliced {generation : UInt64} {edit : Edit} {text : Bytes} {nodes : Nat} {t tree : Tree}
    {n : Node} (p : Patch generation edit text nodes t.element n tree) (h : t.Lossless) :
    Node.Spliced generation edit n ⟨n.start, p.label, p.inside⟩ (Hole.address p.holes) t.root
      tree.root := by
  have around := p.around
  simp only [Node.surrounds, Bool.and_eq_true, decide_eq_true_eq] at around
  obtain ⟨-, -, width, -⟩ := Node.replacement?_eq_some p.read
  have replaced : Node.Spliced generation edit n ⟨n.start, p.label, p.inside⟩ [] n
    ⟨n.start, p.label, p.inside⟩ := .here
  obtain ⟨b, b', whole, start, whole', start', spliced⟩ := Hole.spliced_fill replaced
    (p.filled_all (p.measured h)) p.start p.start (by omega) width
    (n.rereadAs p.body (Hole.path n.element p.holes) p.arena generation text).arena.nodes
  obtain rfl : b = t.root := Node.eq_of_element (whole.trans p.whole) start
  obtain rfl : b' = tree.root := Node.eq_of_element (whole'.trans p.filled.symm) start'
  rwa [List.append_nil] at spliced

/-- An edit for which only one node of a document's tree is read again, and the tree stays in its
arena, puts a node into the place of that node. The nodes around it keep their kind, their name and
the number of their children, and every other node is still there, with all that is below it. It
starts where it did if it ends before the node, and otherwise as much later as the text has grown. -/
theorem reparse_shares (text : Bytes) (opts : ParseOptions) (steps : List Revision) (edit : Edit)
    (opts' : ParseOptions) (r : Reparsed)
    (read : ((parse text opts).revisions steps).reparse edit opts' = .ok r)
    (partly : r.full = false) (kept : r.compacted = false) :
    let t := (parse text opts).revisions steps
    ∃ (place : List Nat) (n n' : Node),
      t.root.at? place = some n ∧ r.tree.root.at? place = some n' ∧
      n.kind.standsAlone = true ∧ n.surrounds edit = true ∧
      r.kind = n'.kind ∧ r.span = n'.span ∧
      r.tree.generation = t.nextGeneration opts'.generation ∧
      n'.element.All (fun l _ => l.generation = r.tree.generation) ∧
      (∀ q, q <+: place → q ≠ place →
        ∃ a a', t.root.at? q = some a ∧ r.tree.root.at? q = some a' ∧ a'.kind = a.kind ∧
          a'.label.name = a.label.name ∧ a'.children.length = a.children.length ∧
          a'.start = a.start ∧ a'.label.generation = r.tree.generation) ∧
      ∀ q m, t.root.at? q = some m → ¬ q <+: place → ¬ place <+: q →
        ∃ m', r.tree.root.at? q = some m' ∧ m'.label = m.label ∧ m'.children = m.children ∧
          (m.start + m.label.width ≤ n.start ∧ m'.start = m.start ∨
            n.start + n.label.width ≤ m.start ∧ (m'.start : Int) = m.start + edit.delta) := by
  intro t
  have lossless : t.Lossless := (revisions_lossless (parseIn_lossless _ _ _) steps).1
  obtain ⟨text', n, ⟨p⟩, kind, span⟩ := reparse_patch read lossless partly kept
  have spliced := p.spliced lossless
  obtain ⟨-, same, width, -⟩ := Node.replacement?_eq_some p.read
  have grown : (p.label.width : Int) = n.label.width + edit.delta := by
    have around := p.around
    simp only [Node.surrounds, Bool.and_eq_true, decide_eq_true_eq] at around
    rw [width, Edit.resize, Edit.delta]
    omega
  refine ⟨_, n, ⟨n.start, p.label, p.inside⟩, spliced.at?.1, spliced.at?.2, p.alone, p.around,
    kind.trans same.symm, ?_, p.generation_eq, ?_, ?_, ?_⟩
  · rw [span, Node.span, width]
  · rw [p.generation_eq]
    exact p.made.imp fun _ _ h _ => h.2.2
  · rw [p.generation_eq]
    exact fun q before proper => spliced.around before proper
  · intro q m found above below
    exact spliced.beside (p.measured lossless) grown above below found

/-- Two records, in the first of which a field gets a longer type. -/
def widened : Tree :=
  (parse "record A { int a; } record B { int b; }").revisions [.edit ⟨11, 3, "string"⟩ {}]

/-- The field is renamed, too, and nothing changes in the second record but where it starts. -/
theorem reparse_shares_widened :
    ∃ r, widened.reparse ⟨18, 1, "xyz"⟩ = .ok r ∧ r.full = false ∧ r.compacted = false ∧
      ∃ (place : List Nat) (n : Node), widened.root.at? place = some n ∧
        ∀ q m, widened.root.at? q = some m → ¬ q <+: place → ¬ place <+: q →
          ∃ m', r.tree.root.at? q = some m' ∧ m'.label = m.label ∧ m'.children = m.children ∧
            (m.start + m.label.width ≤ n.start ∧ m'.start = m.start ∨
              n.start + n.label.width ≤ m.start ∧ (m'.start : Int) = m.start + 2) := by
  have partly : (widened.reparse ⟨18, 1, "xyz"⟩).toOption.map (fun r => (r.full, r.compacted)) =
      some (false, false) := by decide +kernel
  cases read : widened.reparse ⟨18, 1, "xyz"⟩ with
  | error e =>
    rw [read] at partly
    contradiction
  | ok r =>
    rw [read] at partly
    obtain ⟨full, compacted⟩ := Prod.mk.inj (Option.some.inj partly)
    obtain ⟨place, n, n', found, -, -, -, -, -, -, -, -, beside⟩ :=
      reparse_shares _ _ _ _ _ r read full compacted
    exact ⟨r, rfl, full, compacted, place, n, found, beside⟩

end Tree

end AvroIdl
