import AvroIdl.Proofs.Tree.Incremental

/-!
# Nodes and their names

The parser notes of a node which of its children names it. The child is a token that can name nodes
of the kind, and it stays where it is while the node grows: what is read later stands behind it, and
only nodes are moved into other nodes.

* `Machine.Named.act`: every action keeps this;
* `Tree.named_of_fresh`: it holds of a tree that is what reading its text gives.
-/

namespace AvroIdl

open Element (AllOf)

/-- The child that a node is named by is a token that can name it. -/
def Element.Named (l : Label) (children : List Element) : Prop :=
  ∀ i, l.name = some i → ∃ t, children[i]? = some (.leaf t) ∧ l.kind.canBeNamed t = true

/-- The child that a node is named by is a token that may name it. -/
def Element.NamedBy (may : NodeKind → Token → Prop) (l : Label) (children : List Element) : Prop :=
  ∀ i, l.name = some i → ∃ t, children[i]? = some (.leaf t) ∧ may l.kind t

theorem Element.named_of_unnamed {l : Label} {children : List Element} (unnamed : l.name = none) :
    Named l children := by
  intro i name
  rw [unnamed] at name
  contradiction

/-- The child that an open node is named by is a token that can name it. -/
def Frame.Named (f : Frame) : Prop :=
  ∀ i, f.name = some i → ∃ t, f.children.reverse[i]? = some (.leaf t) ∧ f.kind.canBeNamed t = true

/-- The child that an open node is named by is a token that may name it. -/
def Frame.NamedBy (may : NodeKind → Token → Prop) (f : Frame) : Prop :=
  ∀ i, f.name = some i → ∃ t, f.children.reverse[i]? = some (.leaf t) ∧ may f.kind t

namespace Frame

variable {may : NodeKind → Token → Prop} {f : Frame}

/-- What is read later stands behind the name. -/
theorem NamedBy.more (h : f.NamedBy may) (later : List Element) :
    Frame.NamedBy may { f with children := later ++ f.children } := by
  intro i name
  obtain ⟨t, here, can⟩ := h i name
  obtain ⟨bound, -⟩ := List.getElem?_eq_some_iff.mp here
  refine ⟨t, ?_, can⟩
  rw [List.reverse_append, List.getElem?_append_left bound, here]

/-- Only a node that has no kind yet gets one, so that its name may name nodes of every kind. -/
theorem NamedBy.become (h : f.NamedBy may) (opens : ∀ k t, may .invalid t → may k t)
    (invalid : f.kind = .invalid) (kind : NodeKind) (error : Option SyntaxError) :
    Frame.NamedBy may { f with kind, error } := by
  intro i name
  obtain ⟨t, here, can⟩ := h i name
  rw [invalid] at can
  exact ⟨t, here, opens kind t can⟩

/-- The newest child is no name if it is a node. -/
theorem NamedBy.fewer (h : f.NamedBy may) {l : Label} {children others : List Element}
    (newest : f.children = .node l children :: others) :
    Frame.NamedBy may { f with children := others } := by
  intro i name
  obtain ⟨t, here, can⟩ := h i name
  rw [newest, List.reverse_cons] at here
  refine ⟨t, ?_, can⟩
  rcases Nat.lt_or_ge i others.reverse.length with old | last
  · rwa [List.getElem?_append_left old] at here
  · rw [List.getElem?_append_right last, List.getElem?_singleton] at here
    split_ifs at here
    simp at here

end Frame

namespace Machine

variable {m n : Machine}

/-- What holds of all open nodes, and of the innermost when it is changed, holds after the change. -/
theorem forall_onTop {P : Frame → Prop} (h : ∀ f ∈ m.frames, P f) {change : Frame → Frame}
    (top : ∀ f ∈ m.frames.head?, P f → P (change f)) : ∀ f ∈ (m.onTop change).frames, P f := by
  cases hm : m.frames with
  | nil => simp [Machine.onTop, hm]
  | cons g below =>
    rw [hm] at h
    intro f mem
    simp only [Machine.onTop, hm] at mem
    rcases List.mem_cons.mp mem with rfl | mem
    · exact top g (by simp [hm]) (h g List.mem_cons_self)
    · exact h f (.tail _ mem)

section

variable {P : Label → List Element → Prop}

theorem allOf_leaf {es : List Element} (h : AllOf P es) (t : Token) :
    AllOf P (es ++ [Element.leaf t]) :=
  Element.allOf_append.mpr ⟨h, trivial, trivial⟩

/-- What holds of all nodes that have been read, and of the innermost open one, holds when that
ends. -/
theorem allOf_close {f g : Frame} {below : List Frame} (hm : m.frames = f :: g :: below)
    (h : AllOf P m.elements)
    (here : P (m.arena.nextLabel m.generation f.kind f.name f.error f.children.reverse)
      f.children.reverse) : AllOf P m.close.elements := by
  obtain ⟨before, after⟩ := elements_close hm
  rw [before] at h
  rw [after]
  simp only [Element.allOf_append] at h ⊢
  exact ⟨⟨h.1.1, ⟨here, h.1.2⟩, trivial⟩, h.2⟩

/-- Before the next token stand only leaves, and malformed tokens in nodes of their own. -/
theorem allOf_receive (h : AllOf P m.elements)
    (held : ∀ (arena : Arena) (generation : UInt64) (cause : LexError) (t : Token),
      P (arena.nextLabel generation .error none (some (.lexical cause t.text)) [.leaf t]) [.leaf t])
    (l : Lexeme) :
    AllOf P (m.receive l).elements := by
  unfold Machine.receive
  induction l.leading generalizing m with
  | nil => exact h
  | cons t rest ih =>
    refine ih ?_
    unfold Machine.hold
    split
    · simpa only [Machine.elements, List.append_assoc] using allOf_leaf h t
    · simp only [Machine.elements, Element.allOf_append] at h ⊢
      exact ⟨h.1, h.2, ⟨held .., trivial, trivial⟩, trivial⟩

end

/-- The names of all that has been read. -/
structure Named (m : Machine) : Prop where
  frames : ∀ f ∈ m.frames, f.Named
  elements : AllOf Element.Named m.elements

/-- All that has been read is named by tokens that may name it. -/
structure NamedBy (may : NodeKind → Token → Prop) (m : Machine) : Prop where
  frames : ∀ f ∈ m.frames, f.NamedBy may
  elements : AllOf (Element.NamedBy may) m.elements

section

variable {may : NodeKind → Token → Prop}

theorem NamedBy.flush (h : m.NamedBy may) (some : m.frames ≠ []) : m.flush.NamedBy may := by
  constructor
  · exact forall_onTop h.frames fun f _ named => named.more m.pending.reverse
  · rw [elements_flush some]
    exact h.elements

theorem NamedBy.take (h : m.NamedBy may) (some : m.frames ≠ []) (t : Token) :
    (m.take t).NamedBy may := by
  constructor
  · exact forall_onTop (h.flush some).frames fun f _ named => named.more [.leaf t]
  · rw [elements_take some]
    exact allOf_leaf h.elements t

/-- The token that a node is named by comes behind all that the node holds so far. -/
theorem NamedBy.takeName (h : m.NamedBy may) {t : Token} (some : m.frames ≠ [])
    (names : ∀ f ∈ m.frames.head?, may f.kind t) : (m.takeName t).NamedBy may := by
  obtain ⟨f, below, hm⟩ := List.exists_cons_of_ne_nil some
  have frames := (h.flush some).frames
  constructor
  · simp only [Machine.takeName, Machine.take, Machine.flush, Machine.onTop, hm] at frames ⊢
    intro g mem
    rcases List.mem_cons.mp mem with rfl | mem
    · intro i name
      obtain rfl := Option.some.inj name
      refine ⟨t, ?_, names f (by simp [hm])⟩
      rw [List.reverse_nil, List.nil_append, List.reverse_cons, ← List.length_reverse,
        List.getElem?_concat_length]
    · exact frames g (.tail _ mem)
  · rw [elements_takeName some]
    exact allOf_leaf h.elements t

theorem NamedBy.wrapLast (h : m.NamedBy may) {kind : NodeKind}
    (enabled : (Action.wrapLast kind).Enabled m) : (m.wrapLast kind).NamedBy may := by
  obtain ⟨_, f, top, l, children, others, hc, _⟩ := enabled
  obtain ⟨below, hm⟩ : ∃ below, m.frames = f :: below := List.head?_eq_some_iff.mp top
  have frames := h.frames
  rw [hm] at frames
  constructor
  · simp only [Machine.wrapLast, hm, hc]
    intro g mem
    rcases List.mem_cons.mp mem with rfl | mem
    · intro i name
      contradiction
    · rcases List.mem_cons.mp mem with rfl | mem
      · exact (frames f List.mem_cons_self).fewer hc
      · exact frames g (.tail _ mem)
  · rw [elements_wrapLast hm (by simp [hc])]
    exact h.elements

theorem NamedBy.close (h : m.NamedBy may) (inner : m.frames.tail ≠ []) : m.close.NamedBy may := by
  obtain ⟨f, g, below, hm, closed⟩ := close_frames inner
  have frames := h.frames
  rw [hm] at frames
  constructor
  · rw [closed]
    intro k mem
    rcases List.mem_cons.mp mem with rfl | mem
    · exact (frames g (by simp)).more [m.ended f]
    · exact frames k (.tail _ (.tail _ mem))
  · exact allOf_close hm h.elements (frames f List.mem_cons_self)

theorem NamedBy.act (h : m.NamedBy may) (opens : ∀ k t, may .invalid t → may k t) {a : Action}
    (enabled : a.Enabled m) (names : ∀ t, a = .takeName t → ∀ f ∈ m.frames.head?, may f.kind t) :
    (m.act a).NamedBy may := by
  have outer (inner : m.frames.tail ≠ []) : m.frames ≠ [] := fun none => inner (by rw [none]; rfl)
  cases a with
  | begin kind error =>
    constructor
    · intro f mem
      rw [Machine.act, frames_begin] at mem
      rcases List.mem_cons.mp mem with rfl | mem
      · intro i name
        contradiction
      · exact (h.flush enabled).frames f mem
    · rw [Machine.act, elements_begin enabled]
      exact h.elements
  | become kind =>
    constructor
    · exact forall_onTop h.frames fun f top named =>
        named.become opens (enabled.2.2 f top) kind f.error
    · have same : (m.become kind).elements = m.elements := elements_onTop fun _ => rfl
      rw [Machine.act, same]
      exact h.elements
  | becomeError error =>
    constructor
    · exact forall_onTop h.frames fun f top named =>
        named.become opens (enabled.2 f top) .error error
    · have same : (m.becomeError error).elements = m.elements := elements_onTop fun _ => rfl
      rw [Machine.act, same]
      exact h.elements
  | wrapLast kind => exact h.wrapLast enabled
  | take t => exact h.take (outer enabled) t
  | takeName t => exact h.takeName (outer enabled.1) (names t rfl)
  | close => exact h.close enabled

theorem NamedBy.receive (h : m.NamedBy may) (l : Lexeme) : (m.receive l).NamedBy may := by
  constructor
  · rw [frames_receive]
    exact h.frames
  · exact allOf_receive h.elements (fun _ _ _ _ _ name => nomatch name) l

end

/-- A word that names a node without a kind can name every node. -/
theorem Named.act (h : m.Named) {a : Action} (enabled : a.Enabled m) : (m.act a).Named := by
  have named : m.NamedBy (fun k t => k.canBeNamed t = true) := ⟨h.frames, h.elements⟩
  have acted := named.act
    (fun _ t can => NodeKind.canBeNamed_of_isName (by simpa [NodeKind.canBeNamed] using can))
    enabled (fun t eq => by subst eq; exact enabled.2)
  exact ⟨acted.frames, acted.elements⟩

theorem Named.perform (h : m.Named) {actions : List Action} (performs : m.Performs actions) :
    (m.perform actions).Named := by
  induction actions generalizing m with
  | nil => exact h
  | cons a rest ih => exact ih (h.act performs.1) performs.2

theorem Named.step {origin : Origin} {base : Body} (h : m.Named) (aligned : m.Aligned origin base)
    (t : Token) : (m.step t).Named := by
  have performed := h.perform (aligned.performs t)
  rw [step_eq]
  exact ⟨performed.frames, performed.elements⟩

theorem Named.receive (h : m.Named) (l : Lexeme) : (m.receive l).Named := by
  constructor
  · rw [frames_receive]
    exact h.frames
  · exact allOf_receive h.elements (fun _ _ _ _ => Element.named_of_unnamed rfl) l

end Machine

/-- The names of all that has been read stay while the parser goes on. -/
theorem Reading.named_of_reaches {base : Body} {r r' : Reading} (way : Reaches r r')
    (aligned : r.machine.Aligned .any base) (named : r.machine.Named) :
    r'.machine.Aligned .any base ∧ r'.machine.Named := by
  induction way with
  | refl => exact ⟨aligned, named⟩
  | tail _ next ih =>
    obtain ⟨aligned, named⟩ := ih
    cases next with
    | @stay m t rest some stays =>
      replace aligned : m.Aligned .any base := aligned
      exact ⟨aligned.step t fun _ _ _ => trivial, named.step aligned t⟩
    | @move m t l rest takes =>
      replace aligned : m.Aligned .any base := aligned
      exact ⟨(aligned.step t fun _ _ _ => trivial).receive l, (named.step aligned t).receive l⟩

namespace Tree

open Element

/-- Every node of a tree that is read is named by a token that can name it. -/
theorem parseIn_named (arena : Arena) (opts : ParseOptions) (text : Bytes) :
    (parseIn arena opts text).element.All Named := by
  by_cases long : (opts.maxSize < text.length || maxOffset < text.length) = true
  · rw [parseIn, if_pos long]
    exact ⟨named_of_unnamed rfl, ⟨named_of_unnamed rfl, trivial, trivial⟩, trivial⟩
  · simp only [Bool.or_eq_true, decide_eq_true_eq, not_or] at long
    obtain ⟨t, way, done, _, tokens⟩ := Machine.document_reaches arena opts.generation text
    obtain ⟨_, first⟩ := Machine.sound_ofText .document arena opts.generation 0 text
    have named : (Reading.ofText (Machine.start arena opts.generation 0
        [.items .document, .leftovers]) text).machine.Named := by
      obtain ⟨l, rest, hl, -⟩ := lexemes_eq_cons text
      unfold Reading.ofText
      rw [hl]
      apply Machine.Named.receive
      constructor
      · intro f mem
        obtain rfl := List.mem_singleton.mp mem
        intro i name
        contradiction
      · trivial
    have last := (Reading.named_of_reaches way first.aligned named).2
    rw [parseIn_eq arena (Nat.not_lt.mp long.1) (Nat.not_lt.mp long.2)]
    exact ⟨named_of_unnamed rfl, last.elements⟩

/-- Names do not depend on numbers and stamps. -/
theorem named_relabel {f : Label → Label} (kind : ∀ l, (f l).kind = l.kind)
    (name : ∀ l, (f l).name = l.name) (l : Label) (children : List Element) :
    Named (f l) (relabelOf f children) ↔ Named l children := by
  have leaf (i : Nat) (t : Token) :
      (relabelOf f children)[i]? = some (.leaf t) ↔ children[i]? = some (.leaf t) := by
    rw [relabelOf_eq_map, List.getElem?_map, Option.map_eq_some_iff]
    constructor
    · rintro ⟨e, here, same⟩
      cases e with
      | leaf s => rw [here]; simpa [relabel] using same
      | node => simp [relabel] at same
    · intro here
      exact ⟨_, here, rfl⟩
  simp only [Named, leaf, kind, name]

/-- The nodes of a tree that is what reading its text gives are named by tokens that can name them. -/
theorem named_of_fresh {t : Tree} {limit : Nat} (fresh : t.Fresh limit) : t.element.All Named :=
  (all_iff_of_relabel fresh (named_relabel (fun _ => rfl) fun _ => rfl)).mpr (parseIn_named ..)

end Tree

end AvroIdl
