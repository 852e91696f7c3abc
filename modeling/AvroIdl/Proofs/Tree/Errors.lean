import AvroIdl.Proofs.Parser.Reports
import AvroIdl.Proofs.Symbol.Coverage
import AvroIdl.Proofs.Tree.History

/-!
# The errors of a tree

Errors are looked for in marked nodes only. This finds all of them, in the order of the text, and a
tree is marked exactly if there is one to be found, `Tree.errors_reported`. It holds of every tree
that a document ever has, however it was edited.

A tree of a text that has been edited need not be what reading the text gives. But a statement is
replaced by one of the same kind, and what answers for an error beside it is an error node and stays
where it is, `Hole.accounted_renew`.
-/

namespace AvroIdl

/-- An error node reports an error where it starts. -/
theorem Node.start_of_diagnostic? {n : Node} {d : Diagnostic} (h : n.diagnostic? = some d) :
    d.span.start = n.start := by
  unfold diagnostic? at h
  split_ifs at h
  obtain ⟨e, -, rfl⟩ := Option.map_eq_some_iff.mp h
  rfl

namespace Element

/-! ## The nodes of an element -/

mutual

theorem all_of_mem_nodesFrom {P : Label → List Element → Prop} {e : Element} (h : e.All P)
    {start : Nat} {n : Node} (mem : n ∈ e.nodesFrom start) : n.element.All P := by
  cases e with
  | leaf t => contradiction
  | node l children =>
    rcases List.mem_cons.mp mem with rfl | mem
    · exact h
    · exact all_of_mem_nodesAmong h.2 mem

theorem all_of_mem_nodesAmong {P : Label → List Element → Prop} {es : List Element}
    (h : AllOf P es) {start : Nat} {n : Node} (mem : n ∈ nodesAmong start es) :
    n.element.All P := by
  cases es with
  | nil => contradiction
  | cons e rest =>
    rcases List.mem_append.mp mem with mem | mem
    · exact all_of_mem_nodesFrom h.1 mem
    · exact all_of_mem_nodesAmong h.2 mem

end

/-- A node has room for its children, unless there are only tokens in it. -/
def Roomy (l : Label) (children : List Element) : Prop :=
  (∀ e ∈ children, ∃ t, e = leaf t) ∨ widthOf children ≤ l.width

theorem Measured.roomy {l : Label} {children : List Element} (h : Measured l children) :
    Roomy l children := .inr (Nat.le_of_eq h.symm)

theorem nodesAmong_leaves {es : List Element} (leaves : ∀ e ∈ es, ∃ t, e = leaf t) (start : Nat) :
    nodesAmong start es = [] := by
  induction es generalizing start with
  | nil => rfl
  | cons e rest ih =>
    rw [List.forall_mem_cons] at leaves
    obtain ⟨⟨t, rfl⟩, leaves⟩ := leaves
    rw [nodesAmong, nodesFrom, List.nil_append, ih leaves]

mutual

/-- The nodes of an element start inside it. -/
theorem start_mem_nodesFrom {e : Element} (h : e.All Roomy) {start : Nat} {n : Node}
    (mem : n ∈ e.nodesFrom start) : start ≤ n.start ∧ n.start ≤ start + e.width := by
  cases e with
  | leaf t => contradiction
  | node l children =>
    rcases List.mem_cons.mp mem with rfl | mem
    · exact ⟨Nat.le_refl _, Nat.le_add_right _ _⟩
    · rcases h.1 with leaves | room
      · simp [nodesAmong_leaves leaves] at mem
      · obtain ⟨low, high⟩ := start_mem_nodesAmong h.2 mem
        exact ⟨low, Nat.le_trans high (Nat.add_le_add_left room start)⟩

theorem start_mem_nodesAmong {es : List Element} (h : AllOf Roomy es) {start : Nat} {n : Node}
    (mem : n ∈ nodesAmong start es) : start ≤ n.start ∧ n.start ≤ start + widthOf es := by
  cases es with
  | nil => contradiction
  | cons e rest =>
    rw [widthOf_cons]
    rcases List.mem_append.mp mem with mem | mem
    · have := start_mem_nodesFrom h.1 mem
      omega
    · have := start_mem_nodesAmong h.2 mem
      omega

end

mutual

/-- The nodes of an element are listed in the order in which they start. -/
theorem pairwise_nodesFrom {e : Element} (h : e.All Roomy) (start : Nat) :
    (e.nodesFrom start).Pairwise fun a b => a.start ≤ b.start := by
  cases e with
  | leaf t => exact .nil
  | node l children =>
    refine List.pairwise_cons.mpr ⟨fun n mem => ?_, pairwise_nodesAmong h.2 start⟩
    exact (start_mem_nodesAmong h.2 mem).1

theorem pairwise_nodesAmong {es : List Element} (h : AllOf Roomy es) (start : Nat) :
    (nodesAmong start es).Pairwise fun a b => a.start ≤ b.start := by
  cases es with
  | nil => exact .nil
  | cons e rest =>
    refine List.pairwise_append.mpr ⟨pairwise_nodesFrom h.1 start, pairwise_nodesAmong h.2 _, ?_⟩
    intro a before b after
    exact Nat.le_trans (start_mem_nodesFrom h.1 before).2 (start_mem_nodesAmong h.2 after).1

end

/-! ## Marks and reports -/

mutual

/-- An element is marked exactly if there is an error node in it. -/
theorem hasError_iff {e : Element} (marked : e.All Marked) (accounted : e.All Accounted)
    (proper : ∀ t, e = leaf t → t.kind ≠ .error) (start : Nat) :
    e.hasError = true ↔ ∃ n ∈ e.nodesFrom start, n.kind = .error := by
  cases e with
  | leaf t => simpa [nodesFrom, hasError] using proper t rfl
  | node l children =>
    have here : (node l children).hasError = (l.kind = .error || children.any hasError) := marked.1
    rw [here, Bool.or_eq_true, decide_eq_true_eq]
    simp only [nodesFrom, List.mem_cons, or_and_right, exists_or, exists_eq_left]
    by_cases error : l.kind = .error
    · exact iff_of_true (.inl error) (.inl error)
    · exact or_congr Iff.rfl
        (any_hasError_iff marked.2 accounted.2 (accounted.1 error).leaves start)

theorem any_hasError_iff {es : List Element} (marked : AllOf Marked es)
    (accounted : AllOf Accounted es) (proper : ∀ t, leaf t ∈ es → t.kind ≠ .error) (start : Nat) :
    es.any hasError = true ↔ ∃ n ∈ nodesAmong start es, n.kind = .error := by
  cases es with
  | nil => simp [nodesAmong]
  | cons e rest =>
    have first := hasError_iff marked.1 accounted.1
      (fun t eq => proper t (eq ▸ List.mem_cons_self)) start
    have others := any_hasError_iff marked.2 accounted.2 (fun t mem => proper t (.tail _ mem))
      (start + e.width)
    rw [List.any_cons, Bool.or_eq_true, first, others, nodesAmong]
    simp only [List.mem_append, or_and_right, exists_or]

end

mutual

/-- Where nothing is reported, no node has anything to report. -/
theorem filterMap_nodesFrom_eq_nil {e : Element} (silent : e.All Silent) (start : Nat) :
    (e.nodesFrom start).filterMap Node.diagnostic? = [] := by
  cases e with
  | leaf t => rfl
  | node l children =>
    have here := (diagnostic?_eq_none start l children).mpr silent.1
    rw [nodesFrom, List.filterMap_cons_none here, filterMap_nodesAmong_eq_nil silent.2]

theorem filterMap_nodesAmong_eq_nil {es : List Element} (silent : AllOf Silent es) (start : Nat) :
    (nodesAmong start es).filterMap Node.diagnostic? = [] := by
  cases es with
  | nil => rfl
  | cons e rest =>
    rw [nodesAmong, List.filterMap_append, filterMap_nodesFrom_eq_nil silent.1,
      filterMap_nodesAmong_eq_nil silent.2, List.append_nil]

end

mutual

/-- What is found in the marked nodes is what all nodes have to report. -/
theorem diagnosticsFrom_eq {e : Element} (marked : e.All Marked) (start : Nat) :
    e.diagnosticsFrom start = (e.nodesFrom start).filterMap Node.diagnostic? := by
  cases e with
  | leaf t => rfl
  | node l children =>
    rw [diagnosticsFrom]
    split_ifs with error
    · rw [nodesFrom, List.filterMap_cons, diagnosticsFromAll_eq marked.2]
      cases Node.diagnostic? ⟨start, l, children⟩ <;> rfl
    · have clean : (node l children).hasError = false := by simpa [hasError] using error
      rw [filterMap_nodesFrom_eq_nil (silent_of_unmarked marked clean)]

theorem diagnosticsFromAll_eq {es : List Element} (marked : AllOf Marked es) (start : Nat) :
    diagnosticsFromAll start es = (nodesAmong start es).filterMap Node.diagnostic? := by
  cases es with
  | nil => rfl
  | cons e rest =>
    rw [diagnosticsFromAll, nodesAmong, List.filterMap_append, diagnosticsFrom_eq marked.1,
      diagnosticsFromAll_eq marked.2]

end

/-! ## Other labels -/

section

variable {f : Label → Label}

theorem silent_relabel (kind : ∀ l, (f l).kind = l.kind) (error : ∀ l, (f l).error = l.error)
    (e : Element) : (e.relabel f).All Silent ↔ e.All Silent :=
  all_relabel (fun l _ => by simp only [Silent, kind, error]) e

theorem isError_relabel (kind : ∀ l, (f l).kind = l.kind) (e : Element) :
    (e.relabel f).IsError ↔ e.IsError := by
  cases e with
  | leaf t => exact Iff.rfl
  | node l children => simp only [relabel, IsError, kind]

/-- Errors are accounted for without numbers and stamps. -/
theorem accounted_relabel (kind : ∀ l, (f l).kind = l.kind)
    (hasError : ∀ l, (f l).hasError = l.hasError) (error : ∀ l, (f l).error = l.error) (l : Label)
    (children : List Element) :
    Accounted (f l) (relabelOf f children) ↔ Accounted l children := by
  have mute (e : Element) : (e.relabel f).Mute ↔ e.Mute := by
    rw [Mute, Mute, hasError_relabel hasError, silent_relabel kind error]
  have answers (k : NodeKind) (e : Element) : (e.relabel f).Answers k ↔ e.Answers k := by
    rw [Answers, Answers, silent_relabel kind error, isError_relabel kind]
  have child {e : Element} (mem : e ∈ children) : e.relabel f ∈ relabelOf f children := by
    rw [relabelOf_eq_map]
    exact List.mem_map_of_mem mem
  have of_child {e : Element} (mem : e ∈ relabelOf f children) :
      ∃ e' ∈ children, e'.relabel f = e := by
    rw [relabelOf_eq_map] at mem
    exact List.mem_map.mp mem
  have same : AccountedIn l.kind (relabelOf f children) ↔ AccountedIn l.kind children := by
    constructor
    · rintro ⟨leaves, answered⟩
      refine ⟨fun t mem => leaves t (child mem), fun e mem silent => ?_⟩
      obtain ⟨_, there, loud⟩ := answered _ (child mem) ((mute e).mpr silent)
      obtain ⟨a, here, rfl⟩ := of_child there
      exact ⟨a, here, (answers _ a).mp loud⟩
    · rintro ⟨leaves, answered⟩
      refine ⟨fun t mem => leaves t ?_, fun e mem silent => ?_⟩
      · obtain ⟨e, here, eq⟩ := of_child mem
        cases e with
        | leaf s => rwa [← show leaf s = leaf t from eq]
        | node => simp [relabel] at eq
      · obtain ⟨e, here, rfl⟩ := of_child mem
        obtain ⟨a, there, loud⟩ := answered e here ((mute e).mp silent)
        exact ⟨_, child there, (answers _ a).mpr loud⟩
  rw [Accounted, Accounted, kind, same]

theorem roomy_relabel (width : ∀ l, (f l).width = l.width) (l : Label) (children : List Element) :
    Roomy (f l) (relabelOf f children) ↔ Roomy l children := by
  have leaf (e : Element) : (∃ t, e.relabel f = .leaf t) ↔ ∃ t, e = .leaf t := by
    cases e <;> simp [relabel]
  rw [Roomy, Roomy, width, widthOf_relabelOf width, relabelOf_eq_map]
  simp only [List.forall_mem_map, leaf]

end

end Element

/-! ## Statements that are replaced -/

/-- Only what holds statements has a child that holds statements. -/
theorem NodeKind.body?_of_holds {parent child : NodeKind} (h : parent.holds child = true)
    (body : child.body?.isSome = true) : parent.body?.isSome = true := by
  cases child with
  | protocolDecl | recordDecl | errorDecl => cases parent <;> first | rfl | contradiction
  | _ => contradiction

namespace Hole

open Element

/-- The errors in a node that holds statements are accounted for when a statement is replaced. -/
theorem accounted_anew {h : Hole} {e e' : Element} (host : h.label.kind.isHost = true)
    (other : ¬ e.IsError) (leaf : ∀ t, e' ≠ .leaf t) (mute : ¬ e'.Mute)
    (accounted : Accounted h.label (h.children e)) {l : Label} (kind : l.kind = h.label.kind) :
    Accounted l (h.children e') := by
  intro plain
  rw [kind] at plain ⊢
  obtain ⟨leaves, answered⟩ := accounted plain
  have beside {a x y : Element} (mem : a ∈ h.children x) (ne : a ≠ x) : a ∈ h.children y := by
    simp only [children, List.mem_append, List.mem_cons] at mem ⊢
    exact mem.imp_right fun here => .inr (here.resolve_left ne)
  refine ⟨fun t mem => leaves t (beside mem (leaf t).symm), fun a mem silent => ?_⟩
  obtain ⟨d, there, loud, error⟩ := answered a (beside mem fun eq => mute (eq ▸ silent)) silent
  exact ⟨d, beside there fun eq => other (eq ▸ error host), loud, error⟩

/-- The errors in the nodes made anew around a statement are accounted for. -/
theorem accounted_renew {generation : UInt64} {edit : Edit} {e e' : Element} {holes : List Hole}
    (sited : (fill e holes).All Sited) (accounted : (fill e holes).All Accounted)
    (body : ∀ h ∈ holes.head?, h.label.kind.body?.isSome = true) (other : ¬ e.IsError)
    (same : SameKind e e') (mute : ¬ e'.Mute) (new : e'.All Accounted) (nodes : Nat) :
    (fill e' (renew generation edit nodes e' holes)).All Accounted := by
  induction holes generalizing e e' nodes with
  | nil => exact new
  | cons hole outer ih =>
    have whole : (hole.plug e).All Accounted := all_fill accounted
    have some : hole.label.kind.body?.isSome = true := body hole rfl
    have plain : hole.label.kind ≠ .error := fun error => by simp [error, NodeKind.body?] at some
    have anew : ((hole.anew generation edit nodes e').plug e').All Accounted := by
      have parts := whole.2
      simp only [children, allOf_append, AllOf] at parts
      constructor
      · refine accounted_anew (by simp [NodeKind.isHost, some]) other ?_ mute whole.1 rfl
        rintro t rfl
        cases e <;> contradiction
      · simpa only [Hole.anew, children, allOf_append, AllOf] using ⟨parts.1, new, parts.2.2⟩
    have same : SameKind (hole.plug e) ((hole.anew generation edit nodes e').plug e') := rfl
    rw [renew, fill]
    refine ih sited accounted ?_ plain same (not_mute_node rfl plain (anew.1 plain)) anew _
    rintro h head
    obtain ⟨outer, rfl⟩ := List.head?_eq_some_iff.mp head
    have around : (h.plug (hole.plug e)).All Sited := all_fill sited
    have child : hole.plug e ∈ h.children (hole.plug e) := by simp [children]
    exact NodeKind.body?_of_holds (around.1 hole.label (hole.children e) child) some

end Hole

/-- All that has been read is accounted for in the outermost node, if no other is open. -/
theorem Machine.Accounted.outermost {m : Machine} (h : m.Accounted) {f : Frame}
    (hm : m.frames = [f]) (other : f.kind ≠ .error) : Element.AccountedIn f.kind m.elements := by
  have frames := h.frames
  rw [hm] at frames
  have whole : (f.plus m.pending.reverse).Accounted :=
    (frames.accounted f List.mem_cons_self).plus fun e mem => h.pending e (List.mem_reverse.mp mem)
  have listed : m.elements = (f.plus m.pending.reverse).children.reverse := by
    simp [Machine.elements, Frame.listed, Frame.plus, hm]
  rw [listed]
  exact accounted_ended (m := m) whole other

namespace Tree

open Element

/-- The errors in a tree are accounted for. -/
structure Accounted (t : Tree) : Prop where
  root : t.label.kind = .document
  formed : t.element.All Element.Formed
  accounted : t.element.All Element.Accounted
  roomy : t.element.All Roomy

theorem tooLong_accounted (arena : Arena) (opts : ParseOptions) (text : Bytes) :
    (tooLong arena opts text).Accounted := by
  refine ⟨rfl, (tooLong_formed arena opts text).nodes, ⟨fun _ => ?_, ⟨?_, trivial, trivial⟩, trivial⟩,
    ⟨.inr (Nat.le_refl _), ⟨.inl ?_, trivial, trivial⟩, trivial⟩⟩
  · refine accountedIn_of_not_mute fun e mem => ?_
    obtain rfl := List.mem_singleton.mp mem
    exact fun mute => absurd mute.2.1 (by simp [Silent])
  · exact fun other => absurd rfl other
  · intro e mem
    exact ⟨_, List.mem_singleton.mp mem⟩

/-- The errors in a tree that is read are accounted for. -/
theorem parse_accounted (text : Bytes) (opts : ParseOptions) : (parse text opts).Accounted := by
  by_cases long : (opts.maxSize < text.length || maxOffset < text.length) = true
  · rw [parse, parseIn, if_pos long]
    exact tooLong_accounted {} opts text
  · have formed := parse_formed text opts
    simp only [Bool.or_eq_true, decide_eq_true_eq, not_or] at long
    refine ⟨formed.root, formed.nodes, ?_, ?_⟩
    · obtain ⟨t, way, done, -⟩ := Machine.document_reaches {} opts.generation text
      have answerable := Reading.answerable_of_reaches .document {} opts.generation 0 text way
      obtain ⟨f, hm, document⟩ := answerable.aligned.one_frame done
      have outermost := answerable.accounted.outermost hm (by simp [document])
      rw [document] at outermost
      rw [parse, parseIn_eq {} (Nat.not_lt.mp long.1) (Nat.not_lt.mp long.2)]
      exact ⟨fun _ => outermost, answerable.accounted.elements⟩
    · have lossless := parseIn_lossless {} opts text
      have measured := lossless.measured.resolve_right fun tall => by
        have length : (parseIn {} opts text).text = text := by
          rw [parseIn_eq {} (Nat.not_lt.mp long.1) (Nat.not_lt.mp long.2)]
        exact long.2 (length ▸ tall.1)
      exact measured.imp fun _ _ here _ => here.roomy

/-- The errors in a statement that is read again are accounted for. -/
theorem rereadAs_accounted {n : Node} {body : Body} {above : List Node} {arena : Arena}
    {generation : UInt64} {text : Bytes} {l : Label} {children : List Element}
    (read : (n.rereadAs body above arena generation text).contents = [.node l children]) :
    (Element.node l children).All Element.Accounted := by
  have task := Goal.Task.statement body
  obtain ⟨t, rest, way, -⟩ := Machine.run_ofText (Machine.steady_start task arena generation
    (above.countP fun a => a.kind.hasBlock)) (text.drop n.start)
  obtain ⟨-, -, split, -⟩ := Machine.run_statement body arena generation
    (above.countP fun a => a.kind.hasBlock) (text.drop n.start)
  have accounted := (Reading.answerable_of_reaches task _ _ _ _ way).accounted.elements
  dsimp only [Node.rereadAs] at read
  rw [split, read] at accounted
  exact accounted.1

theorem Patch.accounted {generation : UInt64} {edit : Edit} {text : Bytes} {nodes : Nat} {t : Tree}
    {n : Node} {tree : Tree} (p : Patch generation edit text nodes t.element n tree)
    (h : t.Accounted) (lossless : tree.Lossless) : tree.Accounted := by
  obtain ⟨read, kind, -⟩ := Node.replacement?_eq_some p.read
  have formed := p.filled_all h.formed
  have plain : n.kind ≠ .error := fun error => by
    have alone := p.alone
    simp [error, NodeKind.standsAlone] at alone
  have new := rereadAs_accounted read
  have loud : ¬ (Element.node p.label p.inside).Mute :=
    not_mute_node p.made.1.2.1 (kind ▸ plain) (new.1 (kind ▸ plain))
  have body : ∀ hole ∈ p.holes.head?, hole.label.kind.body?.isSome = true := by
    intro hole head
    obtain ⟨outer, eq⟩ := List.head?_eq_some_iff.mp head
    have parent := p.parent
    rw [eq] at parent
    exact Option.isSome_of_eq_some parent
  have alike : SameKind n.element (.node p.label p.inside) := kind
  obtain ⟨nodes, same⟩ := Hole.formed_renew formed (rereadAs_formed read) alike _
  have accounted : tree.element.All Element.Accounted := by
    rw [p.filled]
    exact Hole.accounted_renew (formed.imp fun _ _ here _ => here.sited)
      (p.filled_all h.accounted) body plain alike loud new _
  rw [← p.filled] at nodes same
  rw [p.whole] at same
  refine ⟨Eq.trans same h.root, nodes, accounted, ?_⟩
  obtain measured | ⟨_, alone⟩ := lossless.measured
  · exact measured.imp fun _ _ here _ => here.roomy
  · have stands := p.alone
    rw [p.filled] at alone
    rw [← kind, (Hole.all_fill alone).1] at stands
    contradiction

theorem compact_accounted {t : Tree} (h : t.Accounted) : t.compact.Accounted := by
  have same := relabel_compact (f := Label.unnumbered) (fun _ _ => rfl) t
  refine ⟨h.root, ?_, ?_, ?_⟩
  · rw [all_iff_of_relabel same (formed_relabel (fun _ => rfl) fun _ => rfl)]
    exact h.formed
  · rw [all_iff_of_relabel same (accounted_relabel (fun _ => rfl) (fun _ => rfl) fun _ => rfl)]
    exact h.accounted
  · rw [all_iff_of_relabel same (roomy_relabel fun _ => rfl)]
    exact h.roomy

theorem reparse_accounted {t : Tree} {edit : Edit} {opts : ParseOptions} {r : Reparsed}
    (h : t.reparse edit opts = .ok r) (lossless : t.Lossless) (accounted : t.Accounted) :
    r.tree.Accounted := by
  obtain ⟨text, applied, ⟨_, eq⟩ | ⟨_, n, tree, ⟨p⟩, _, _, eq⟩⟩ := reparse_cases h lossless
  · rw [eq]
    exact parse_accounted _ _
  · have whole := p.accounted accounted (p.lossless lossless applied (Nat.le_refl _))
    rcases eq with eq | eq <;> rw [eq]
    · exact whole
    · exact compact_accounted whole

theorem revise_accounted {t : Tree} (lossless : t.Lossless) (h : t.Accounted) (step : Revision) :
    (t.revise step).Accounted := by
  cases step with
  | compact => exact compact_accounted h
  | edit edit opts =>
    simp only [revise]
    cases read : t.reparse edit opts with
    | ok r => exact reparse_accounted read lossless h
    | error e => exact h

/-- The errors in every tree that a document ever has are accounted for. -/
theorem revisions_accounted {t : Tree} (lossless : t.Lossless) (h : t.Accounted)
    (steps : List Revision) : (t.revisions steps).Accounted := by
  induction steps generalizing t with
  | nil => exact h
  | cons step rest ih =>
    exact ih (revise_lossless lossless step).1 (revise_accounted lossless h step)

/-- A tree is marked exactly if there is an error to report. -/
theorem Accounted.hasError_iff {t : Tree} (h : t.Accounted) (marked : t.element.All Marked) :
    t.label.hasError = true ↔ t.diagnostics ≠ [] := by
  have plain : t.label.kind ≠ .error := by simp [h.root]
  rw [diagnostics, Ne, diagnosticsFrom_eq_nil marked]
  constructor
  · intro error silent
    exact not_mute_node marked.1 plain (h.accounted.1 plain) ⟨error, silent⟩
  · intro loud
    by_contra clean
    exact loud (silent_of_unmarked marked (by simpa [element, Element.hasError] using clean))

/-- No error is lost, in any tree that a document ever has: a node is marked exactly if there is an
error node in it, looking into marked nodes finds what all error nodes have to report, in the order
of the text, and the root is marked exactly if that is anything at all. -/
theorem errors_reported (text : Bytes) (opts : ParseOptions) (steps : List Revision) :
    let t := (parse text opts).revisions steps
    (∀ n ∈ t.element.nodesFrom 0,
      n.hasError = true ↔ ∃ below ∈ n.element.nodesFrom n.start, below.kind = .error) ∧
    t.diagnostics = (t.element.nodesFrom 0).filterMap Node.diagnostic? ∧
    t.diagnostics.Pairwise (fun a b => a.span.start ≤ b.span.start) ∧
    (t.root.hasError = true ↔ t.diagnostics ≠ []) := by
  intro t
  have first := parseIn_lossless {} opts text
  have marked : t.element.All Marked := (revisions_lossless first steps).1.marked
  have accounted : t.Accounted := revisions_accounted first (parse_accounted text opts) steps
  have listed : t.diagnostics = (t.element.nodesFrom 0).filterMap Node.diagnostic? :=
    diagnosticsFrom_eq marked 0
  refine ⟨fun n mem => ?_, listed, ?_, accounted.hasError_iff marked⟩
  · exact hasError_iff (all_of_mem_nodesFrom marked mem)
      (all_of_mem_nodesFrom accounted.accounted mem) (by simp [Node.element]) n.start
  · rw [listed]
    refine (pairwise_nodesFrom accounted.roomy 0).filterMap _ fun a b le d here d' there => ?_
    rwa [Node.start_of_diagnostic? here, Node.start_of_diagnostic? there]

/-- A fixed type and a field, of which part is skipped, with the field edited. -/
def skipped : Tree :=
  (parse "fixed F 3; record R { int i = ] 2; }").revisions [.edit ⟨26, 1, "jk"⟩ {}, .compact]

/-- Some of the error nodes have nothing to report, and what the others report is found. -/
theorem errors_reported_skipped :
    (∃ n ∈ skipped.element.nodesFrom 0, n.kind = .error ∧ n.label.error.isNone = true) ∧
      skipped.diagnostics = (skipped.element.nodesFrom 0).filterMap Node.diagnostic? ∧
      (skipped.root.hasError = true ↔ skipped.diagnostics ≠ []) := by
  refine ⟨by decide +kernel, ?_⟩
  obtain ⟨-, listed, -, marked⟩ := errors_reported "fixed F 3; record R { int i = ] 2; }" {}
    [.edit ⟨26, 1, "jk"⟩ {}, .compact]
  exact ⟨listed, marked⟩

end Tree

end AvroIdl
