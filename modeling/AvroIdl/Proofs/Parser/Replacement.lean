import AvroIdl.Proofs.Parser.Origin

/-!
# A statement in the place of another

Where a statement has been read, the parser goes on in the same way whatever the statement was, as
long as it was one. So another node can be put into its place, and the tree is the same otherwise:

* `Element.swap` puts an element into the place of the node with a number;
* `Reading.swap_reaches`: the parser goes on with another node in the place of a statement, and ends
  with the same tree around it;
* `Reading.exists_passes`: every statement of a document was read on the way through it;
* `Reading.Passes.replace`: where a statement of a text is replaced by one that begins with the same
  token and can be read alone, the new text is read as the old one with that statement in its place.
-/

namespace AvroIdl

namespace Element

mutual

/-- An element with another in the place of the node with a number. -/
def swap (id : NodeId) (new : Element) : Element → Element
  | leaf t => leaf t
  | node l children => if l.id = id then new else node l (swapOf id new children)

/-- Elements with another in the place of the node with a number. -/
def swapOf (id : NodeId) (new : Element) : List Element → List Element
  | [] => []
  | e :: rest => swap id new e :: swapOf id new rest

end

variable {id : NodeId} {new : Element}

theorem swapOf_eq_map (id : NodeId) (new : Element) (es : List Element) :
    swapOf id new es = es.map (swap id new) := by
  induction es with
  | nil => rfl
  | cons e rest ih => rw [swapOf, ih, List.map_cons]

mutual

theorem swap_of_not_mem {e : Element} (h : id ∉ e.ids) : swap id new e = e := by
  cases e with
  | leaf => rfl
  | node l children =>
    simp only [ids, List.mem_cons, not_or] at h
    rw [swap, if_neg (Ne.symm h.1), swapOf_of_not_mem h.2]

theorem swapOf_of_not_mem {es : List Element} (h : id ∉ idsOf es) : swapOf id new es = es := by
  cases es with
  | nil => rfl
  | cons e rest =>
    simp only [idsOf, List.mem_append, not_or] at h
    rw [swapOf, swap_of_not_mem h.1, swapOf_of_not_mem h.2]

end

/-- What is around a node stays when another is put into its place. -/
theorem swap_fill {e : Element} {holes : List Hole} (h : id ∉ Hole.idsOf holes) :
    swap id new (Hole.fill e holes) = Hole.fill (swap id new e) holes := by
  induction holes generalizing e with
  | nil => rfl
  | cons hole outer ih =>
    simp only [Hole.idsOf, List.mem_append, List.mem_cons, not_or] at h
    obtain ⟨⟨other, before, after⟩, outside⟩ := h
    rw [Hole.fill, ih outside, Hole.fill]
    have parts : swapOf id new (hole.children e) = hole.children (swap id new e) := by
      rw [Hole.children, swapOf_eq_map, List.map_append, List.map_cons, ← swapOf_eq_map,
        ← swapOf_eq_map, swapOf_of_not_mem before, swapOf_of_not_mem after]
      rfl
    rw [Hole.plug, swap, if_neg (Ne.symm other), parts]
    rfl

theorem mem_idsOf_of_fill {e : Element} {holes : List Hole} {label : Label} {es : List Element}
    (inside : holes ≠ []) (whole : Hole.fill e holes = .node label es) :
    label.id ∈ Hole.idsOf holes := by
  induction holes generalizing e with
  | nil => contradiction
  | cons hole outer ih =>
    cases outer with
    | nil =>
      obtain ⟨rfl, -⟩ := Element.node.inj whole
      exact List.mem_cons_self
    | cons next others => exact List.mem_append_right _ (ih (by simp) whole)

/-- Another element in the place of a node inside a tree goes into the holes around the node. -/
theorem swap_root {l label : Label} {children es : List Element} {holes : List Hole}
    (nodup : (Hole.fill (.node l children) holes).ids.Nodup) (inside : holes ≠ [])
    (whole : Hole.fill (.node l children) holes = .node label es) :
    .node label (swapOf l.id new es) = Hole.fill new holes := by
  rw [(Hole.ids_fill _ holes).nodup_iff] at nodup
  have outside : l.id ∉ Hole.idsOf holes := fun mem =>
    (List.nodup_append.mp nodup).2.2 l.id List.mem_cons_self l.id mem rfl
  have other : label.id ≠ l.id := fun same => outside (same ▸ mem_idsOf_of_fill inside whole)
  have filled : swap l.id new (Hole.fill (.node l children) holes) =
      Hole.fill (swap l.id new (.node l children)) holes := swap_fill outside
  rwa [whole, swap, if_neg other, swap, if_pos rfl] at filled

/-- What is seen with a node in the place of another. -/
def seenWith (id : NodeId) (new : Element) (e : Element) : Element := (swap id new e).form

theorem view_seenWith {lo : Nat} (le : id ≤ lo) {l : Label} {children : List Element}
    (isNode : new = .node l children) : View lo (seenWith id new) where
  leaf _ := rfl
  isNode l' children' := by
    rw [seenWith, swap]
    split_ifs
    · exact ⟨_, _, by rw [isNode, form_node]⟩
    · exact ⟨_, _, form_node _ _⟩
  node l' children' above := by
    have other : l'.id ≠ id := fun same => absurd (same ▸ le) (Nat.not_le.mpr above)
    rw [seenWith, swap, if_neg other, form_node, swapOf_eq_map, List.map_map]
    rfl

theorem map_seenWith {es : List Element} (h : id ∉ idsOf es) :
    es.map (seenWith id new) = es.map form := by
  calc es.map (seenWith id new) = (swapOf id new es).map form := by
        rw [swapOf_eq_map, List.map_map]
        rfl
    _ = es.map form := by rw [swapOf_of_not_mem h]

end Element

/-- A hole without numbers, stamps, widths and marks. -/
def Hole.form (h : Hole) : Hole := ⟨h.label.form, h.before.map Element.form, h.after.map Element.form⟩

theorem Hole.form_fill {e e' : Element} {holes holes' : List Hole} (same : e.form = e'.form)
    (around : holes.map form = holes'.map form) : (fill e holes).form = (fill e' holes').form := by
  induction holes generalizing e e' holes' with
  | nil =>
    obtain rfl : holes' = [] := List.map_eq_nil_iff.mp around.symm
    exact same
  | cons hole outer ih =>
    obtain ⟨hole', outer', rfl, first, others⟩ := List.map_eq_cons_iff.mp around.symm
    rw [fill, fill]
    refine ih ?_ others.symm
    simp only [form, Hole.mk.injEq] at first
    simp only [plug, children, Element.form_node, List.map_append, List.map_cons, same, first]

/-- Open nodes that do not hold a node are seen as they are. -/
theorem Frame.map_seenWith {id : NodeId} {new : Element} {frames : List Frame}
    (h : id ∉ Element.idsOf (Frame.listed frames)) :
    frames.map (Frame.seen (Element.seenWith id new)) = frames.map (Frame.seen Element.form) := by
  induction frames with
  | nil => rfl
  | cons f below ih =>
    simp only [Frame.listed, Element.idsOf_append, List.mem_append, not_or] at h
    have children : f.children.map (Element.seenWith id new) = f.children.map Element.form := by
      rw [← List.reverse_inj, ← List.map_reverse, ← List.map_reverse]
      exact Element.map_seenWith h.2
    rw [List.map_cons, List.map_cons, ih h.1, Frame.seen, Frame.seen, children]

namespace Machine

/-- A parser that has just read a node looks like one that has read another node, if the two have the
same open nodes otherwise. -/
theorem alike_push {m n : Machine} {lo : Nat} {f : Frame} {below : List Frame} {l l' : Label}
    {children children' : List Element} (sound : m.Sound lo)
    (hm : m.frames = Frame.push (.node l children) (f :: below))
    (hn : n.frames = Frame.push (.node l' children') (f :: below))
    (pending : m.pending.map Element.form = n.pending.map Element.form)
    (control : m.control.norm = n.control.norm) :
    l.id ≤ m.arena.nodes ∧
      Alike m.arena.nodes (Element.seenWith l.id (.node l' children')) m n := by
  obtain ⟨-, ⟨nodup, bounds⟩, -⟩ := sound
  have listed : m.elements = Frame.listed (f :: below) ++ .node l children :: m.pending := by
    simp [elements, hm, Frame.push, Frame.listed]
  rw [listed, Element.idsOf_append, Element.idsOf, Element.ids] at nodup bounds
  -- No other node has the number of the one that was read.
  have outside : l.id ∉ Element.idsOf (Frame.listed (f :: below)) := fun mem =>
    (List.nodup_append.mp nodup).2.2 l.id mem l.id (by simp) rfl
  have waiting : l.id ∉ Element.idsOf m.pending := fun mem => by
    have inside := (List.nodup_append.mp nodup).2.1
    rw [List.cons_append, List.nodup_cons] at inside
    exact inside.1 (List.mem_append_right _ mem)
  refine ⟨(bounds l.id (by simp)).2, ⟨?_, ?_⟩, control, Nat.le_refl _⟩
  · have same : (f :: below).map (Frame.seen (Element.seenWith l.id (.node l' children'))) =
        (f :: below).map (Frame.seen Element.form) := Frame.map_seenWith outside
    simp only [List.map_cons, List.cons.injEq, Frame.seen_eq_iff] at same
    obtain ⟨⟨-, -, -, inner⟩, outer⟩ := same
    simp [hm, hn, Frame.push, Frame.seen, inner, outer, Element.seenWith, Element.swap]
  · rw [Element.map_seenWith waiting, pending]

/-- What looks alike in open nodes looks alike in the order of the text. -/
theorem Resembles.elements {view : Element → Element} {m m' : Machine} (h : Resembles view m m') :
    m.elements.map view = m'.elements.map Element.form := by
  have listed {fs fs' : List Frame}
      (same : fs.map (Frame.seen view) = fs'.map (Frame.seen Element.form)) :
      (Frame.listed fs).map view = (Frame.listed fs').map Element.form := by
    induction fs generalizing fs' with
    | nil =>
      obtain rfl : fs' = [] := List.map_eq_nil_iff.mp same.symm
      rfl
    | cons f below ih =>
      obtain ⟨f', below', rfl, first, others⟩ := List.map_eq_cons_iff.mp same.symm
      have children := (Frame.seen_eq_iff.mp first).2.2.2
      simp [Frame.listed, ih others.symm, children]
  rw [Machine.elements, Machine.elements, List.map_append, List.map_append, listed h.frames, h.pending]

end Machine

/-- The form of elements has their tokens. -/
theorem Element.tokensOf_of_form {es es' : List Element} (same : es.map form = es'.map form) :
    tokensOf es = tokensOf es' := by
  have forms (es : List Element) : tokensOf (es.map form) = tokensOf es := by
    change tokensOf (es.map (relabel Label.form)) = _
    rw [← relabelOf_eq_map, tokensOf_relabelOf]
  rw [← forms es, same, forms es']

namespace Reading

open Machine Element

/-- With another node in the place of the one that has just been read, the parser goes on in the same
way, and ends with the same tree around it. -/
theorem swap_reaches {r last : Reading} {n : Machine} {lo : Nat} {f : Frame} {below : List Frame}
    {l l' : Label} {children children' : List Element} (sound : r.machine.Sound lo)
    (hm : r.machine.frames = Frame.push (.node l children) (f :: below))
    (hn : n.frames = Frame.push (.node l' children') (f :: below))
    (pending : r.machine.pending.map form = n.pending.map form)
    (control : r.machine.control.norm = n.control.norm) (way : Reaches r last) :
    ∃ n', Reaches ⟨n, r.token, r.rest⟩ ⟨n', last.token, last.rest⟩ ∧
      (last.machine.goals = [] → n'.goals = []) ∧
      (swapOf l.id (.node l' children') last.machine.elements).map form = n'.elements.map form := by
  obtain ⟨le, alike⟩ := alike_push sound hm hn pending control
  obtain ⟨n', way', alike'⟩ := alike.reaches (view_seenWith le rfl) way
  refine ⟨n', way', alike'.goals_eq_nil.mp, ?_⟩
  rw [← alike'.built.elements, swapOf_eq_map, List.map_map]
  rfl

/-- The parser before the text of a document. -/
def document (arena : Arena) (generation : UInt64) (text : Bytes) : Reading :=
  ofText (Machine.start arena generation 0 [.items .document, .leftovers]) text

/-- The parser after the text of a document. -/
def documentEnd (arena : Arena) (generation : UInt64) (text : Bytes) : Machine :=
  (Machine.start arena generation 0 [.items .document, .leftovers]).run (lexemes text)

/-- What is read does not depend on numbers and stamps. -/
theorem form_documentEnd (arena arena' : Arena) (generation generation' : UInt64) (text : Bytes) :
    (documentEnd arena generation text).elements.map form =
      (documentEnd arena' generation' text).elements.map form := by
  obtain ⟨t, way, done, -⟩ := document_reaches arena generation text
  obtain ⟨t', way', done', -⟩ := document_reaches arena' generation' text
  obtain ⟨l, rest, hl, -⟩ := lexemes_eq_cons text
  have here (m : Machine) : ofText m text = ⟨m.receive l, l.token, rest⟩ := by
    simp only [ofText, hl, start]
  rw [here] at way way'
  have alike : Alike 0 form
      (Machine.start arena generation 0 [.items .document, .leftovers])
      (Machine.start arena' generation' 0 [.items .document, .leftovers]) :=
    ⟨⟨rfl, rfl⟩, rfl, Nat.zero_le _⟩
  obtain ⟨n, again, same⟩ := (alike.receive (view_form 0) l).reaches (view_form 0) way
  have final : n = documentEnd arena' generation' text :=
    congrArg Reading.machine (eq_of_done again way' (same.goals_eq_nil.mp done) done')
  rw [← final]
  exact same.built.elements

/-- The way through a document past a statement, which begins at `r₀` and has been read at `r₁`. -/
structure Passes (first r₀ r₁ last : Reading) (body : Body) (l : Label) (children : List Element) :
    Prop where
  before : Reaches first r₀
  reads : Reaches r₀ r₁
  after : Reaches r₁ last
  goals : r₀.machine.goals = .item body :: r₁.machine.goals
  frames : r₁.machine.frames = Frame.push (.node l children) r₀.machine.flush.frames
  done : last.machine.goals = []

section

variable {arena : Arena} {generation : UInt64} {text : Bytes} {r₀ r₁ last : Reading} {body : Body}
  {r : Reading} {l : Label} {children : List Element}

theorem Passes.frames_cons (h : Passes (document arena generation text) r₀ r₁ last body l children) :
    ∃ f below, r₀.machine.flush.frames = f :: below := by
  have aligned := ((stands_ofText .document ..).reaches h.before).sound.aligned
  exact List.exists_cons_of_ne_nil (by simpa using aligned.nested.frames_ne)

/-- With another node in the place of the statement, goals and open nodes are still in line. -/
theorem Passes.aligned (h : Passes (document arena generation text) r₀ r₁ last body l children)
    {n : Machine} {e : Element} (hg : n.goals = r₁.machine.goals)
    (hn : n.frames = Frame.push e r₀.machine.flush.frames) : n.Aligned .any .document := by
  obtain ⟨f, below, hf⟩ := h.frames_cons
  have stands := (stands_ofText .document ..).reaches h.before
  have nested := ((stands.reaches h.reads)).sound.aligned.nested
  have tucked := stands.sound.aligned.tucked
  rw [h.goals] at tucked
  refine aligned_of_tucked ?_ (by rw [hg]; exact tucked.2)
  rw [hg, hn, hf]
  rw [h.frames, hf] at nested
  refine (nested_top ?_).mp nested
  rfl

/-- What has been read with a node in the place of the statement. -/
theorem Passes.tokens_eq (h : Passes (document arena generation text) r₀ r₁ last body l children)
    {n : Machine} {e : Element} (hn : n.frames = Frame.push e r₀.machine.flush.frames) :
    tokensOf n.elements = tokensOf r₀.machine.elements ++ e.tokens ++ tokensOf n.pending := by
  obtain ⟨f, below, hf⟩ := h.frames_cons
  have some : r₀.machine.frames ≠ [] := fun none => by
    rw [← frames_flush_eq_nil, hf] at none
    contradiction
  have waits : r₀.machine.flush.pending = [] := rfl
  rw [← elements_flush some]
  simp [Machine.elements, hn, hf, waits, Frame.push, Frame.listed, tokensOf]

/-- The tokens before a statement are those that had been read when it began. -/
theorem Passes.front_eq (h : Passes (document arena generation text) r₀ r₁ last body l children)
    {holes : List Hole} {label : Label}
    (whole : Hole.fill (.node l children) holes = .node label last.machine.elements)
    (nodup : (Hole.fill (.node l children) holes).ids.Nodup) (inside : holes ≠ [])
    (all : Token.all text = Hole.front holes ++ tokensOf children ++ Hole.back holes) :
    tokensOf r₀.machine.elements = Hole.front holes := by
  obtain ⟨f, below, hf⟩ := h.frames_cons
  have begins := (stands_ofText .document ..).reaches h.before
  have read := begins.reaches h.reads
  -- A token that is in no text marks the place.
  let n : Machine :=
    { r₁.machine with frames := Frame.push (.node l [.leaf .eof]) r₀.machine.flush.frames }
  have placed : n.frames = Frame.push (.node l [.leaf .eof]) r₀.machine.flush.frames := rfl
  obtain ⟨n', way, -, forms⟩ := swap_reaches (n := n) read.sound.built (hf ▸ h.frames) (hf ▸ placed)
    rfl rfl h.after
  have marked := tokens_reaches (r := ⟨n, r₁.token, r₁.rest⟩) (h.aligned rfl placed) way
  have tree : tokensOf n'.elements = Hole.front holes ++ .eof :: Hole.back holes := by
    calc tokensOf n'.elements = tokensOf (swapOf l.id (.node l [.leaf .eof]) last.machine.elements) :=
          (tokensOf_of_form forms).symm
      _ = (Hole.fill (.node l [.leaf .eof]) holes).tokens := by
          rw [← swap_root nodup inside whole, Element.tokens]
      _ = _ := by simp [Hole.tokens_fill, Element.tokens, tokensOf]
  have before : ∀ t ∈ tokensOf r₀.machine.elements, t ∈ Token.all text := fun t mem => by
    have start := congrArg List.dropLast begins.sound.whole
    rw [List.dropLast_append_cons, List.dropLast_concat] at start
    rw [← start]
    exact List.mem_append_left _ mem
  have front : ∀ t ∈ Hole.front holes, t ∈ Token.all text := fun t mem => by simp [all, mem]
  simp only [tree, h.tokens_eq placed, Element.tokens, tokensOf, List.append_assoc, List.cons_append,
    List.nil_append] at marked
  have real {t : Token} (mem : t ∈ Token.all text) : decide (t.kind ≠ .eof) = true :=
    decide_eq_true (Token.kind_ne_eof mem)
  exact (append_cons_inj (p := fun t => decide (t.kind ≠ .eof)) (fun t mem => real (front t mem))
    (fun t mem => real (before t mem)) rfl rfl marked).1.symm

theorem counts_document (way : Reaches (document arena generation text) r) :
    r.machine.control.Counts := by
  refine way.invariant (P := fun m => m.control.Counts) (fun m t h => ?_) (fun m l h => ?_) ?_
  · rw [control_step]
    exact h.step _ t
  · rwa [control_receive]
  · obtain ⟨l, rest, hl, -⟩ := lexemes_eq_cons text
    simp only [document, ofText, hl, start, control_receive]
    exact ⟨rfl, by simp [Machine.control, Machine.start]⟩

/-- Every statement of a document was read on the way through it, in the body of the node around it
and with the bodies around it counted. -/
theorem exists_passes {holes : List Hole} {label : Label}
    (whole : Hole.fill (.node l children) holes =
      .node label (documentEnd arena generation text).elements)
    (kind : label.kind = .document) (alone : l.kind.standsAlone = true) :
    ∃ r₀ r₁ last body, Passes (document arena generation text) r₀ r₁ last body l children ∧
      last.machine = documentEnd arena generation text ∧
      (holes.map (·.label.kind)).head?.bind NodeKind.body? = some body ∧
      r₀.machine.blocks = (holes.map (·.label.kind)).countP NodeKind.hasBlock := by
  obtain ⟨t, way, done, -⟩ := document_reaches arena generation text
  obtain ⟨-, aligned, placed⟩ := (traced_ofText .document ..).reaches way
  obtain ⟨d, one, outermost⟩ := aligned.one_frame done
  replace one : (documentEnd arena generation text).frames = [d] := one
  replace placed : (documentEnd arena generation text).Placed
    (Produces (document arena generation text) ⟨documentEnd arena generation text, t, []⟩) := placed
  have root : Element.Placed
      (Produces (document arena generation text) ⟨documentEnd arena generation text, t, []⟩) []
      (Hole.fill (.node l children) holes) := by
    have frames := placed.frames
    rw [one] at frames
    rw [whole]
    refine ⟨fun here => ?_, ?_⟩
    · rw [kind] at here
      contradiction
    · rw [kind, Machine.elements, one, placedOf_append]
      simp only [Frame.listed, List.nil_append, placedOf_reverse]
      exact ⟨outermost ▸ frames.1, placed.pending _⟩
  obtain ⟨r₀, r₁, body, before, reads, after, goals, push, kinds, -⟩ := (placed_fill root).1 alone
  have passes : Passes (document arena generation text) r₀ r₁ _ body l children :=
    ⟨before, reads, after, goals, push, done⟩
  -- The place where the statement began says what the nodes around it are.
  have nested := ((stands_ofText .document ..).reaches before).sound.aligned.nested
  obtain ⟨f, below, hf⟩ := passes.frames_cons
  rw [goals, ← nested_flush, hf] at nested
  have site : Site .document body r₁.machine.goals f.kind below := nested.1
  rw [hf, List.map_cons, List.append_nil] at kinds
  refine ⟨r₀, r₁, _, body, passes, rfl, ?_, ?_⟩
  · rw [← kinds, List.head?_cons, Option.bind_some]
    by_cases outer : below = []
    · obtain ⟨hk, rfl⟩ := site.outermost outer
      rw [hk]
      rfl
    · exact site.inner outer
  · rw [← kinds, ← site.leaves]
    have counted := (counts_document before).blocks
    rwa [show r₀.machine.control.goals = _ from goals, List.count_cons_of_ne (by simp)] at counted

/-- After a statement there is no error that has not been dealt with. -/
theorem Stands.ok_after {lo lo' : Nat} {generation' : UInt64} {base base' : Body} {text' : Bytes}
    {r' : Reading} (h : r.Stands lo generation base text) (h' : r'.Stands lo' generation' base' text')
    (hg : r.machine.goals = .item body :: r'.machine.goals) : r'.machine.ok = true := by
  have backed := h.steady.backed
  rw [show r.machine.control.goals = _ from hg] at backed
  cases failed : r'.machine.ok with
  | true => rfl
  | false =>
    have guard := h'.steady.guarded failed
    rw [show Goal.guarded r'.machine.control.goals = false from backed.1] at guard
    contradiction

/-- What has been read grows only when a token is taken. -/
theorem taken_lt {base : Body} {r r' : Reading} (aligned : r.machine.Aligned .any base)
    (way : Reaches r r') (more : tokensOf r'.machine.elements ≠ tokensOf r.machine.elements) :
    r.machine.taken < r'.machine.taken := by
  refine Nat.lt_of_le_of_ne (taken_le way) fun same => more ?_
  obtain ⟨token, rest⟩ := same_of_taken way same.symm
  have whole := tokens_reaches aligned way
  rw [token, rest] at whole
  exact List.append_cancel_right whole

/-- The token in sight when a statement begins is its first one. -/
theorem Passes.token_eq (h : Passes (document arena generation text) r₀ r₁ last body l children)
    {front back : List Token} (before : tokensOf r₀.machine.elements = front)
    (all : Token.all text = front ++ tokensOf children ++ back) (full : tokensOf children ≠ []) :
    ∃ after, tokensOf children ++ back = r₀.token :: after := by
  have whole := ((stands_ofText .document ..).reaches h.before).sound.whole
  obtain ⟨t, ts, first⟩ := List.exists_cons_of_ne_nil full
  simp only [before, all, first, List.append_assoc, List.append_cancel_left_eq, List.cons_append,
    List.cons.injEq] at whole
  exact ⟨ts ++ back, by rw [first, whole.1, List.cons_append]⟩

/-- After a statement the parser goes on in the same way, whatever the statement was. -/
theorem norm_after {text' : Bytes} {r₀' r₁' : Reading}
    (before : Reaches (document arena generation text) r₀) (reads : Reaches r₀ r₁)
    (before' : Reaches (document arena generation text') r₀') (reads' : Reaches r₀' r₁')
    (hg : r₀.machine.goals = .item body :: r₁.machine.goals) (begin : r₀'.machine = r₀.machine)
    (goals : r₁'.machine.goals = r₁.machine.goals)
    (more : tokensOf r₁.machine.elements ≠ tokensOf r₀.machine.elements)
    (more' : tokensOf r₁'.machine.elements ≠ tokensOf r₀.machine.elements) :
    r₁.machine.control.norm = r₁'.machine.control.norm := by
  have stands := (stands_ofText .document ..).reaches before
  have stands' := (stands_ofText .document ..).reaches before'
  have lt := taken_lt stands.sound.aligned reads more
  have lt' := taken_lt stands'.sound.aligned reads' (begin ▸ more')
  rw [begin] at lt'
  refine (counts_document (before.trans reads)).norm_eq (counts_document (before'.trans reads'))
    goals.symm ?_ fun inner n mem => ?_
  · have ok := stands.ok_after (stands.reaches reads) hg
    have ok' := stands'.ok_after (stands'.reaches reads') (begin ▸ goals ▸ hg)
    exact ok.trans ok'.symm
  · -- A statement that is remembered began before this one.
    have le : n ≤ r₀.machine.taken := (counts_document before).before inner n
      (by rw [show r₀.machine.control.goals = _ from hg]; exact .tail _ mem)
    exact ⟨Nat.lt_of_le_of_lt le lt, Nat.lt_of_le_of_lt le lt'⟩

section

variable {holes : List Hole} {label : Label}

/-- Where another statement has been read in the place of one, and the texts go on in the same way,
the trees are the same around the two. -/
theorem Passes.swap (h : Passes (document arena generation text) r₀ r₁ last body l children)
    (whole : Hole.fill (.node l children) holes = .node label last.machine.elements)
    (nodup : (Hole.fill (.node l children) holes).ids.Nodup) (inside : holes ≠ [])
    (front : tokensOf r₀.machine.elements = Hole.front holes)
    (all : Token.all text = Hole.front holes ++ tokensOf children ++ Hole.back holes)
    (full : tokensOf children ≠ []) {text' : Bytes} {r₀' r₁' : Reading} {l' : Label}
    {children' : List Element} (before : Reaches (document arena generation text') r₀')
    (reads : Reaches r₀' r₁') (begin : r₀'.machine = r₀.machine)
    (goals : r₁'.machine.goals = r₁.machine.goals)
    (frames : r₁'.machine.frames = Frame.push (.node l' children') r₀.machine.flush.frames)
    (all' : Token.all text' = Hole.front holes ++ tokensOf children' ++ Hole.back holes)
    (full' : tokensOf children' ≠ []) :
    (Element.node label (documentEnd arena generation text').elements).form = (Hole.fill (.node l' children') holes).form := by
  obtain ⟨f, below, hf⟩ := h.frames_cons
  have stands := (stands_ofText .document ..).reaches (h.before.trans h.reads)
  have stands' := (stands_ofText .document ..).reaches (before.trans reads)
  have built := h.tokens_eq h.frames
  have built' := h.tokens_eq frames
  obtain ⟨waits, token, rest⟩ := stands.same_sight stands' (by
    have read := stands.sound.whole
    have read' := stands'.sound.whole
    simp only [built, built', front, all, all', Element.tokens, List.append_assoc,
      List.append_cancel_left_eq] at read read'
    rw [read, read'])
  have norm := norm_after h.before h.reads before reads h.goals begin goals
    (by simp [built, Element.tokens, full]) (by simp [built', Element.tokens, full'])
  obtain ⟨n, onward, ends, forms⟩ := swap_reaches stands.sound.built (hf ▸ h.frames) (hf ▸ frames)
    waits norm h.after
  -- What the parser comes to with the other statement is all that it reads.
  rw [token, rest] at onward
  obtain ⟨_, way, done, -⟩ := document_reaches arena generation text'
  have final : n = documentEnd arena generation text' := congrArg Reading.machine
    (eq_of_done ((before.trans reads).trans onward) way (ends h.done) done)
  calc (Element.node label (documentEnd arena generation text').elements).form
      = (Element.node label (swapOf l.id (.node l' children') last.machine.elements)).form := by
        rw [form_node, form_node, forms, final]
    _ = (Hole.fill (.node l' children') holes).form := by rw [swap_root nodup inside whole]

/-- A text that begins with a token that the grammar sees has nothing before it. -/
theorem ofText_eq {x z : Bytes} {t : Token} (m : Machine) (found : Token.next? x = some (t, z))
    (seen : Lexeme.passes t = false) : ofText m x = ⟨m, t, Lexeme.group [] (Token.all z)⟩ := by
  simp only [ofText, lexemes, Token.all_eq_cons found, Lexeme.group_cons_seen seen]
  rfl

/-- Where a statement of a text is replaced by one that begins with the same token and is read alone
in the same body, the new text is read as the old one with the other statement in its place. -/
theorem Passes.replace (h : Passes (document arena generation text) r₀ r₁ last body l children)
    (whole : Hole.fill (.node l children) holes = .node label last.machine.elements)
    (nodup : (Hole.fill (.node l children) holes).ids.Nodup) (inside : holes ≠ [])
    (all : Token.all text = Hole.front holes ++ tokensOf children ++ Hole.back holes)
    (full : tokensOf children ≠ []) {x x' z z' : Bytes} {t t' : Token}
    (hx : text = Token.textOf (Hole.front holes) ++ x)
    (old : Token.next? x = some (t, z)) (new : Token.next? x' = some (t', z'))
    (sameKind : t'.kind = t.kind) (sameText : t'.text = t.text)
    {arena' : Arena} {generation' : UInt64} {l' : Label} {children' : List Element}
    (read : ((Machine.start arena' generation' r₀.machine.blocks [.item body]).run
      (lexemes x')).contents = [.node l' children'])
    (all' : Token.all x' = tokensOf children' ++ Hole.back holes) (full' : tokensOf children' ≠ []) :
    let text' := Token.textOf (Hole.front holes) ++ x'
    (Element.node label (documentEnd arena generation text').elements).form = (Hole.fill (.node l' children') holes).form := by
  intro text'
  have front := h.front_eq whole nodup inside all
  have begins := (stands_ofText .document ..).reaches h.before
  -- The token in sight is the first one of the statement, in the old text as in the new one.
  have rest : Token.all x = tokensOf children ++ Hole.back holes := by
    have drop := Token.all_drop (all.trans (List.append_assoc ..))
    rwa [hx, List.drop_left] at drop
  obtain ⟨after, first⟩ := h.token_eq front all full
  obtain rfl : r₀.token = t := by
    rw [← rest, Token.all_eq_cons old] at first
    exact (List.cons.inj first).1.symm
  have more : r₀.token.kind ≠ .eof := Token.kind_ne_eof (s := x) (by simp [Token.all_eq_cons old])
  have seen := begins.seen
  obtain ⟨sees, proper⟩ : r₀.token.kind.isTrivia = false ∧ r₀.token.kind ≠ .error := by
    simpa [Lexeme.passes] using seen
  obtain rfl : t' = r₀.token := Token.eq_of_next old new sameKind sameText proper
  have tokens' : Token.all text' = Hole.front holes ++ Token.all x' := by
    refine Token.all_replace old new proper sees (fun dot => front ▸ begins.apart h.goals dot) ?_
    rw [← hx, all, rest, List.append_assoc]
  -- So the parser begins to read the new statement as it began to read the old one.
  have before : Reaches (document arena generation text')
      ⟨r₀.machine, r₀.token, Lexeme.group [] (Token.all z')⟩ :=
    begins.replay_text h.before more (by rw [tokens', front, Token.all_eq_cons new])
  obtain ⟨t₁, rest', way, done⟩ :=
    run_ofText (steady_start (.statement body) arena' generation' r₀.machine.blocks) x'
  rw [ofText_eq _ new seen] at way
  obtain ⟨n, e, reads, goals, frames, same, -⟩ := statement_reaches h.goals (begins.ok h.goals)
    begins.sound.aligned.nested.frames_ne way done read
  obtain ⟨l'', children'', rfl⟩ : ∃ l'' children'', e = .node l'' children'' := by
    cases e with
    | leaf => simp at same
    | node l'' children'' => exact ⟨l'', children'', rfl⟩
  have tokens : tokensOf children'' = tokensOf children' := by
    rw [form_node, form_node] at same
    exact (tokensOf_of_form (Element.node.inj same).2).symm
  calc (Element.node label (documentEnd arena generation text').elements).form
      = (Hole.fill (.node l'' children'') holes).form :=
        h.swap whole nodup inside front all full before reads rfl goals frames
          (by rw [tokens', all', tokens, List.append_assoc]) (tokens ▸ full')
    _ = (Hole.fill (.node l' children') holes).form := Hole.form_fill same.symm rfl

end

end

end Reading

end AvroIdl
