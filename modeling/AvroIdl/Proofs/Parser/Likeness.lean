import AvroIdl.Proofs.Parser.Context
import AvroIdl.Proofs.Parser.Elements
import AvroIdl.Proofs.Tree.Relabel

/-!
# Parsers that look alike

What the parser does depends on little of what it has built. So two parsers that have built different
trees go on in the same way, as long as the trees look the same from where the parser stands:

* `Element.View` is a way of looking at elements. It shows what the parser says of the nodes that it
  makes, and may show something else in the place of nodes that were made before;
* `Machine.Alike.next`: parsers that look alike, with the same token in sight, do the same thing and
  look alike afterwards.
-/

namespace AvroIdl

/-- What the parser says of a node: its kind, its name and its error. -/
def Label.form (l : Label) : Label :=
  { l with id := 0, generation := 0, width := 0, hasError := false }

namespace Element

/-- An element without numbers, stamps, widths and marks. -/
def form (e : Element) : Element := e.relabel Label.form

@[simp] theorem form_leaf (t : Token) : form (.leaf t) = .leaf t := rfl

@[simp] theorem form_node (l : Label) (children : List Element) :
    form (.node l children) = .node l.form (children.map form) := by
  rw [form, relabel, relabelOf_eq_map]
  rfl

/-- A way of looking at elements. Nodes with a number above `lo` are seen as they are, and what is
seen of a node is a node. -/
structure View (lo : Nat) (view : Element → Element) : Prop where
  leaf : ∀ t, view (.leaf t) = .leaf t
  isNode : ∀ l children, ∃ l' children', view (.node l children) = .node l' children'
  node : ∀ l children, lo < l.id → view (.node l children) = .node l.form (children.map view)

theorem view_form (lo : Nat) : View lo form :=
  ⟨form_leaf, fun l children => ⟨_, _, form_node l children⟩, fun l children _ => form_node l children⟩

end Element

open Element (View form)

/-- What is seen of an open node. -/
def Frame.seen (view : Element → Element) (f : Frame) : Frame :=
  { f with children := f.children.map view }

theorem Frame.seen_eq_iff {view view' : Element → Element} {f f' : Frame} :
    f.seen view = f'.seen view' ↔
      f.kind = f'.kind ∧ f.name = f'.name ∧ f.error = f'.error ∧
        f.children.map view = f'.children.map view' := by
  simp [seen]

namespace Machine

/-- What `m` has built looks through `view` like what `m'` has built. -/
structure Resembles (view : Element → Element) (m m' : Machine) : Prop where
  frames : m.frames.map (Frame.seen view) = m'.frames.map (Frame.seen form)
  pending : m.pending.map view = m'.pending.map form

section

variable {lo : Nat} {view : Element → Element} {m m' : Machine}

theorem Resembles.cons (h : Resembles view m m') {f : Frame} {below : List Frame}
    (hm : m.frames = f :: below) :
    ∃ f' below', m'.frames = f' :: below' ∧ f.seen view = f'.seen form ∧
      below.map (Frame.seen view) = below'.map (Frame.seen form) := by
  have frames := h.frames
  rw [hm, List.map_cons] at frames
  obtain ⟨f', below', hm', first, others⟩ := List.map_eq_cons_iff.mp frames.symm
  exact ⟨f', below', hm', first.symm, others.symm⟩

theorem Resembles.nil (h : Resembles view m m') (hm : m.frames = []) : m'.frames = [] := by
  have frames := h.frames
  rw [hm, List.map_nil] at frames
  exact List.map_eq_nil_iff.mp frames.symm

theorem Resembles.onTop (h : Resembles view m m') {change change' : Frame → Frame}
    (same : ∀ f f', f.seen view = f'.seen form → (change f).seen view = (change' f').seen form) :
    Resembles view (m.onTop change) (m'.onTop change') := by
  cases hm : m.frames with
  | nil => simpa [Machine.onTop, hm, h.nil hm] using h
  | cons f below =>
    obtain ⟨f', below', hm', first, others⟩ := h.cons hm
    exact ⟨by simp [Machine.onTop, hm, hm', same f f' first, others],
      by simpa [Machine.onTop, hm, hm'] using h.pending⟩

theorem Resembles.flush (h : Resembles view m m') : Resembles view m.flush m'.flush := by
  have top : Resembles view
      (m.onTop fun f => { f with children := m.pending.reverse ++ f.children })
      (m'.onTop fun f => { f with children := m'.pending.reverse ++ f.children }) := by
    refine h.onTop fun f f' same => ?_
    rw [Frame.seen_eq_iff] at same ⊢
    simp [same, h.pending]
  exact ⟨top.frames, rfl⟩

theorem Resembles.begin (h : Resembles view m m') (kind : NodeKind) (error : Option SyntaxError) :
    Resembles view (m.begin kind error) (m'.begin kind error) := by
  refine ⟨?_, h.flush.pending⟩
  rw [frames_begin, frames_begin, List.map_cons, List.map_cons, h.flush.frames]
  rfl

theorem Resembles.take (h : Resembles view m m') (hv : View lo view) (t : Token) :
    Resembles view (m.take t) (m'.take t) := by
  have top : Resembles view
      (m.flush.onTop fun f => { f with children := .leaf t :: f.children })
      (m'.flush.onTop fun f => { f with children := .leaf t :: f.children }) := by
    refine h.flush.onTop fun f f' same => ?_
    rw [Frame.seen_eq_iff] at same ⊢
    simp [same, hv.leaf]
  exact ⟨top.frames, top.pending⟩

theorem Resembles.takeName (h : Resembles view m m') (hv : View lo view) (t : Token) :
    Resembles view (m.takeName t) (m'.takeName t) := by
  refine Resembles.take (h.flush.onTop fun f f' same => ?_) hv t
  rw [Frame.seen_eq_iff] at same ⊢
  have length : f.children.length = f'.children.length := by
    simpa using congrArg List.length same.2.2.2
  simp [same, length]

theorem Resembles.wrapLast (h : Resembles view m m') (kind : NodeKind) :
    Resembles view (m.wrapLast kind) (m'.wrapLast kind) := by
  cases hm : m.frames with
  | nil => simpa [Machine.wrapLast, hm, h.nil hm] using h
  | cons f below =>
    obtain ⟨f', below', hm', first, others⟩ := h.cons hm
    have children := (Frame.seen_eq_iff.mp first).2.2.2
    cases hc : f.children with
    | nil =>
      rw [hc, List.map_nil] at children
      have hc' := List.map_eq_nil_iff.mp children.symm
      simpa [Machine.wrapLast, hm, hm', hc, hc'] using h
    | cons last rest =>
      rw [hc, List.map_cons] at children
      obtain ⟨last', rest', hc', same, behind⟩ := List.map_eq_cons_iff.mp children.symm
      have wrapped : m.wrapLast kind = { m with
          frames := { kind, children := [last] } :: { f with children := rest } :: below } := by
        simp [Machine.wrapLast, hm, hc]
      have wrapped' : m'.wrapLast kind = { m' with
          frames := { kind, children := [last'] } :: { f' with children := rest' } :: below' } := by
        simp [Machine.wrapLast, hm', hc']
      rw [Frame.seen_eq_iff] at first
      rw [wrapped, wrapped']
      exact ⟨by simp [Frame.seen, first, same, behind, others], h.pending⟩

theorem Resembles.close (h : Resembles view m m') (hv : View lo view) (low : lo ≤ m.arena.nodes) :
    Resembles view m.close m'.close := by
  cases hm : m.frames with
  | nil => simpa [Machine.close, hm, h.nil hm] using h
  | cons f below =>
    obtain ⟨f', below', hm', first, others⟩ := h.cons hm
    cases below with
    | nil =>
      obtain rfl : below' = [] := List.map_eq_nil_iff.mp others.symm
      simpa [Machine.close, hm, hm'] using h
    | cons g below =>
      rw [List.map_cons] at others
      obtain ⟨g', below', rfl, parent, others⟩ := List.map_eq_cons_iff.mp others.symm
      rw [Frame.seen_eq_iff] at first
      -- The new node has a number above all others, so that it is seen as it is.
      have ended : view (m.ended f) = form (m'.ended f') := by
        rw [Machine.ended, hv.node _ _ (by simp only [Arena.nextLabel]; omega), Machine.ended,
          Element.form_node]
        simp [Label.form, Arena.nextLabel, first]
      have closed : m.close.frames = { g with children := m.ended f :: g.children } :: below := by
        simp [Machine.close, hm, Machine.ended]
      have closed' :
          m'.close.frames = { g' with children := m'.ended f' :: g'.children } :: below' := by
        simp [Machine.close, hm', Machine.ended]
      have parent := Frame.seen_eq_iff.mp parent.symm
      refine ⟨?_, by simpa [Machine.close, hm, hm'] using h.pending⟩
      rw [closed, closed']
      simp [Frame.seen, parent, ended, others]

/-- The same action done to what looks alike. -/
theorem Resembles.act (h : Resembles view m m') (hv : View lo view) (low : lo ≤ m.arena.nodes)
    (a : Action) : Resembles view (m.act a) (m'.act a) := by
  cases a with
  | begin kind error => exact h.begin kind error
  | become kind =>
    refine h.onTop fun f f' same => ?_
    rw [Frame.seen_eq_iff] at same ⊢
    simp [same]
  | becomeError error =>
    refine h.onTop fun f f' same => ?_
    rw [Frame.seen_eq_iff] at same ⊢
    simp [same]
  | wrapLast kind => exact h.wrapLast kind
  | take t => exact h.take hv t
  | takeName t => exact h.takeName hv t
  | close => exact h.close hv low

/-- The arena only grows. -/
theorem nodes_act (m : Machine) (a : Action) : m.arena.nodes ≤ (m.act a).arena.nodes := by
  cases a with
  | wrapLast kind =>
    simp only [Machine.act, Machine.wrapLast]
    split
    · split <;> exact Nat.le_refl _
    · exact Nat.le_refl _
  | close =>
    simp only [Machine.act, Machine.close]
    split
    · exact Nat.le_succ _
    · exact Nat.le_refl _
  | _ => simp [Machine.act, Machine.begin, Machine.become, Machine.becomeError, Machine.take,
      Machine.takeName, Arena.addLeaf]

theorem nodes_perform (m : Machine) (actions : List Action) :
    m.arena.nodes ≤ (m.perform actions).arena.nodes := by
  induction actions generalizing m with
  | nil => exact Nat.le_refl _
  | cons a rest ih => exact Nat.le_trans (m.nodes_act a) (ih _)

theorem Resembles.perform (h : Resembles view m m') (hv : View lo view) (low : lo ≤ m.arena.nodes)
    (actions : List Action) : Resembles view (m.perform actions) (m'.perform actions) := by
  induction actions generalizing m m' with
  | nil => exact h
  | cons a rest ih => exact ih (h.act hv low a) (Nat.le_trans low (m.nodes_act a))

theorem Resembles.hold (h : Resembles view m m') (hv : View lo view) (low : lo ≤ m.arena.nodes)
    (t : Token) : Resembles view (m.hold t) (m'.hold t) := by
  simp only [Machine.hold]
  cases t.error with
  | none => exact ⟨h.frames, by simp [h.pending, hv.leaf]⟩
  | some cause =>
    refine ⟨h.frames, ?_⟩
    rw [List.map_append, List.map_append, h.pending, List.map_singleton, List.map_singleton,
      hv.node _ _ (by simp only [Arena.nextLabel]; omega), Element.form_node]
    simp [Label.form, Arena.nextLabel, hv.leaf]

theorem nodes_hold (m : Machine) (t : Token) : m.arena.nodes ≤ (m.hold t).arena.nodes := by
  simp only [Machine.hold]
  split <;> simp [Arena.addLeaf, Arena.addNode]

theorem nodes_receive (m : Machine) (l : Lexeme) : m.arena.nodes ≤ (m.receive l).arena.nodes := by
  unfold Machine.receive
  induction l.leading generalizing m with
  | nil => exact Nat.le_refl _
  | cons t rest ih => exact Nat.le_trans (m.nodes_hold t) (ih _)

theorem Resembles.receive (h : Resembles view m m') (hv : View lo view) (low : lo ≤ m.arena.nodes)
    (l : Lexeme) : Resembles view (m.receive l) (m'.receive l) := by
  unfold Machine.receive
  induction l.leading generalizing m m' with
  | nil => exact h
  | cons t rest ih => exact ih (h.hold hv low t) (Nat.le_trans low (m.nodes_hold t))

/-- Whether the newest child is a comma can be seen. -/
theorem Resembles.afterComma (h : Resembles view m m') (hv : View lo view) :
    m.afterComma = m'.afterComma := by
  cases hm : m.frames with
  | nil => simp [Machine.afterComma, hm, h.nil hm]
  | cons f below =>
    obtain ⟨f', below', hm', first, -⟩ := h.cons hm
    have children := (Frame.seen_eq_iff.mp first).2.2.2
    obtain ⟨kind, name, error, cs⟩ := f
    obtain ⟨kind', name', error', cs'⟩ := f'
    cases cs with
    | nil =>
      obtain rfl : cs' = [] := List.map_eq_nil_iff.mp children.symm
      simp [Machine.afterComma, hm, hm']
    | cons e rest =>
      cases cs' with
      | nil => simp at children
      | cons e' rest' =>
        have same : view e = form e' := (List.cons.inj children).1
        cases e with
        | leaf t =>
          rw [hv.leaf] at same
          cases e' with
          | leaf t' =>
            obtain rfl : t = t' := Element.leaf.inj same
            simp [Machine.afterComma, hm, hm']
          | node l cs => simp at same
        | node l cs =>
          obtain ⟨l', cs', seen⟩ := hv.isNode l cs
          rw [seen] at same
          cases e' with
          | leaf t' => simp at same
          | node l₂ cs₂ => simp [Machine.afterComma, hm, hm']

variable (lo view) in
/-- Two parsers look alike: they have built what looks the same through `view`, and their goals
differ in the numbers of tokens that they remember only. -/
structure Alike (m m' : Machine) : Prop where
  built : Resembles view m m'
  control : m.control.norm = m'.control.norm
  low : lo ≤ m.arena.nodes

theorem Alike.receive (h : Alike lo view m m') (hv : View lo view) (l : Lexeme) :
    Alike lo view (m.receive l) (m'.receive l) :=
  ⟨h.built.receive hv h.low l, by rw [control_receive, control_receive, h.control],
    Nat.le_trans h.low (m.nodes_receive l)⟩

/-- Parsers that look alike do the same, and look alike afterwards. -/
theorem Alike.step (h : Alike lo view m m') (hv : View lo view) (t : Token) :
    Alike lo view (m.step t) (m'.step t) ∧
      ((m.step t).taken = m.taken ↔ (m'.step t).taken = m'.taken) := by
  have comma := h.built.afterComma hv
  obtain ⟨next, actions⟩ : (m.control.step m.afterComma t).norm =
        (m'.control.step m.afterComma t).norm ∧
      m.control.actions m.afterComma t = m'.control.actions m.afterComma t :=
    Control.step_norm h.control
  have built := h.built.perform hv h.low (m.control.actions m.afterComma t)
  constructor
  · rw [step_eq m, step_eq m', ← comma, ← actions]
    exact ⟨⟨built.frames, built.pending⟩, next, Nat.le_trans h.low (m.nodes_perform _)⟩
  · have stays (n : Machine) : (n.step t).taken = n.taken ↔
        Action.takes (n.control.actions n.afterComma t) = [] := by
      change (n.step t).control.taken = n.control.taken ↔ _
      rw [control_step]
      obtain ⟨stays, none⟩ | ⟨goes, one⟩ := n.control.takes_step n.afterComma t
      · simp [stays, none]
      · simp [goes, one]
    rw [stays m, stays m', ← comma, ← actions]

theorem Alike.goals_eq_nil (h : Alike lo view m m') : m.goals = [] ↔ m'.goals = [] := by
  have same := (Control.norm_eq_iff.mp h.control).1
  constructor
  · intro none
    rw [show m.control.goals = [] from none, List.map_nil] at same
    exact List.map_eq_nil_iff.mp same.symm
  · intro none
    rw [show m'.control.goals = [] from none, List.map_nil] at same
    exact List.map_eq_nil_iff.mp same

open Reading

theorem Alike.next (h : Alike lo view m m') (hv : View lo view) {t : Token} {rest : List Lexeme}
    {r : Reading} (next : Next ⟨m, t, rest⟩ r) :
    ∃ n, Next ⟨m', t, rest⟩ ⟨n, r.token, r.rest⟩ ∧ Alike lo view r.machine n := by
  obtain ⟨after, takes⟩ := h.step hv t
  cases next with
  | stay some stays =>
    exact ⟨m'.step t, .stay (fun none => some (h.goals_eq_nil.mpr none)) (takes.mp stays), after⟩
  | @move _ _ l rest goes =>
    have goes' : (m'.step t).taken = m'.taken + 1 := by
      refine (m'.taken_step t).resolve_left fun stays => ?_
      have := takes.mpr stays
      omega
    exact ⟨(m'.step t).receive l, .move goes', after.receive hv l⟩

/-- What one parser reaches, the other reaches. -/
theorem Alike.reaches (h : Alike lo view m m') (hv : View lo view) {t : Token} {rest : List Lexeme}
    {r : Reading} (way : Reaches ⟨m, t, rest⟩ r) :
    ∃ n, Reaches ⟨m', t, rest⟩ ⟨n, r.token, r.rest⟩ ∧ Alike lo view r.machine n := by
  induction way with
  | refl => exact ⟨m', .refl, h⟩
  | @tail r₁ r₂ _ next ih =>
    obtain ⟨n, way', alike⟩ := ih
    obtain ⟨n', next', alike'⟩ := alike.next hv next
    exact ⟨n', way'.tail next', alike'⟩

end

end Machine

end AvroIdl
