import AvroIdl.Proofs.Parser.Frames
import AvroIdl.Proofs.Tree.Shape

/-!
# What the parser has read

`Machine.elements` lists all that the parser has read, in the order of the text. What the parser does
to its open nodes changes little about the list: beginning a node leaves it as it is, taking a token
adds to its end, and ending a node makes some elements next to each other one.

* `Machine.tokens_perform`: actions add the tokens that they take, and nothing else;
* `Reading.tokens_eq`: what has been read, the token in sight and the lexemes that follow make up the
  whole text, at all times.
-/

namespace AvroIdl

namespace Action

/-- The tokens that a list of actions takes. -/
def takes : List Action → List Token
  | [] => []
  | .take t :: rest | .takeName t :: rest => t :: takes rest
  | _ :: rest => takes rest

@[simp] theorem takes_append (as bs : List Action) : takes (as ++ bs) = takes as ++ takes bs := by
  fun_induction takes as <;> simp_all [takes]

end Action

namespace Control

theorem takes_recover (c : Control) (t : Token) (skipped : Option Skipped) :
    Action.takes (c.recoverActions t skipped) = [] := by
  fun_cases recoverActions c t skipped <;> rfl

theorem takes_openBrace (c : Control) (t : Token) (inside : List Goal) :
    (c.openBrace t inside).taken = c.taken + (Action.takes (c.openBraceActions t)).length ∧
      ∀ s ∈ Action.takes (c.openBraceActions t), s = t := by
  have recovers := c.takes_recover t (some .statement)
  simp only [openBrace, openBraceActions]
  split_ifs
  · simp [Action.takes]
  · simp [Action.takes, Action.expected, Action.report, recovers]

theorem takes_declaration {c after : Control} {t : Token} {body : Body} {actions : List Action}
    (declares : c.Declares t body after actions) :
    after.taken = c.taken + (Action.takes actions).length ∧ ∀ s ∈ Action.takes actions, s = t := by
  cases declares with
  | dangling => simp [Action.takes, Action.report, c.takes_recover t (some .statement)]
  | _ => simp [Action.takes]

theorem takes_group (c : Control) (comma : Bool) (t : Token) (skipped : Skipped)
    (closers : List TokenKind) :
    let actions := c.workActions comma t (.group skipped closers)
    (c.group skipped closers t).taken = c.taken + (Action.takes actions).length ∧
      ∀ s ∈ Action.takes actions, s = t := by
  have curl (k : t.kind = .closeCurl) : t.closer? = none ∧ t.isCloser = true := by
    simp [Token.closer?, Token.isCloser, k]
  simp only [workActions]
  fun_cases group c skipped closers t <;> split_ifs <;> simp [Action.takes] <;> simp_all

/-- What is taken counts as taken, and is the token in sight. -/
theorem takes_work (c : Control) (comma : Bool) (t : Token) (g : Goal) :
    (c.work comma t g).taken = c.taken + (Action.takes (c.workActions comma t g)).length ∧
      ∀ s ∈ Action.takes (c.workActions comma t g), s = t := by
  cases g with
  | item body =>
    cases body <;> simp only [work, workActions, item, Action.item] <;> (try split_ifs) <;>
      simp [Action.takes]
  | declaration body => exact takes_declaration (c.declares t body)
  | enumBody => exact c.takes_openBrace t _
  | block body =>
    simp only [work, workActions]
    split_ifs with curl
    · simp [openBrace, openBraceActions, curl, Action.takes]
    · exact c.takes_openBrace t _
  | group skipped closers => exact c.takes_group comma t skipped closers
  | skip skipped any =>
    cases skipped <;> simp only [work, workActions] <;> split_ifs <;> simp [Action.takes]
  | _ =>
    simp only [work, workActions, Action.mark, Action.enumSymbols, Action.json, Action.separator,
      typeBody, Action.typeBody]
    (try split_ifs) <;> simp [Action.takes, Action.expected, Action.report]

/-- A step takes the token in sight, or none and does not count one. -/
theorem takes_step (c : Control) (comma : Bool) (t : Token) :
    ((c.step comma t).taken = c.taken ∧ Action.takes (c.actions comma t) = []) ∨
      ((c.step comma t).taken = c.taken + 1 ∧ Action.takes (c.actions comma t) = [t]) := by
  have counted : (c.step comma t).taken = c.taken + (Action.takes (c.actions comma t)).length ∧
      ∀ s ∈ Action.takes (c.actions comma t), s = t := by
    obtain ⟨goals, ok, taken, blocks⟩ := c
    cases goals with
    | nil => simp [step, actions, Action.takes]
    | cons g rest =>
      cases ok with
      | true => exact takes_work ⟨rest, true, taken, blocks⟩ comma t g
      | false =>
        cases g with
        | recover skipped =>
          have recovers := takes_recover ⟨rest, false, taken, blocks⟩ t skipped
          simp [step, actions, unwind, unwindActions, recovers]
        | _ => simp [step, actions, unwind, unwindActions, Action.takes]
  obtain ⟨count, same⟩ := counted
  obtain stays | goes := c.taken_step comma t
  · exact .inl ⟨stays, List.length_eq_zero_iff.mp (by omega)⟩
  · obtain ⟨s, one⟩ := List.length_eq_one_iff.mp
      (show (Action.takes (c.actions comma t)).length = 1 by omega)
    exact .inr ⟨goes, by rw [one, same s (by simp [one])]⟩

end Control

/-- The children of open nodes, in the order of the text. -/
def Frame.listed : List Frame → List Element
  | [] => []
  | f :: below => listed below ++ f.children.reverse

namespace Machine

/-- All that has been read, in the order of the text. -/
def elements (m : Machine) : List Element := Frame.listed m.frames ++ m.pending

theorem elements_flush {m : Machine} (some : m.frames ≠ []) : m.flush.elements = m.elements := by
  unfold elements flush onTop
  cases h : m.frames with
  | nil => exact absurd h some
  | cons f below => simp [Frame.listed]

theorem elements_onTop {m : Machine} {change : Frame → Frame}
    (same : ∀ f, (change f).children = f.children) : (m.onTop change).elements = m.elements := by
  unfold elements onTop
  cases h : m.frames <;> simp [h, Frame.listed, same]

theorem elements_begin {m : Machine} (some : m.frames ≠ []) (kind : NodeKind)
    (error : Option SyntaxError) : (m.begin kind error).elements = m.elements := by
  rw [← elements_flush some]
  simp [elements, begin, Frame.listed]

theorem elements_take {m : Machine} (some : m.frames ≠ []) (t : Token) :
    (m.take t).elements = m.elements ++ [Element.leaf t] := by
  unfold elements take flush onTop
  cases h : m.frames with
  | nil => exact absurd h some
  | cons f below => simp [Frame.listed]

theorem elements_takeName {m : Machine} (some : m.frames ≠ []) (t : Token) :
    (m.takeName t).elements = m.elements ++ [Element.leaf t] := by
  rw [takeName, elements_take (by simpa using some), elements_onTop, elements_flush some]
  intro f
  rfl

theorem elements_wrapLast {m : Machine} {f : Frame} {below : List Frame} (hm : m.frames = f :: below)
    (some : f.children ≠ []) (kind : NodeKind) : (m.wrapLast kind).elements = m.elements := by
  obtain ⟨last, others, hc⟩ := List.exists_cons_of_ne_nil some
  simp [elements, wrapLast, hm, hc, Frame.listed]

/-- The end of a node makes its children one element. -/
theorem elements_close {m : Machine} {f g : Frame} {below : List Frame}
    (hm : m.frames = f :: g :: below) :
    m.elements = Frame.listed (g :: below) ++ f.children.reverse ++ m.pending ∧
      m.close.elements = Frame.listed (g :: below) ++ [m.ended f] ++ m.pending := by
  simp [elements, close, ended, hm, Frame.listed]

@[simp] theorem arena_onTop (m : Machine) (change : Frame → Frame) :
    (m.onTop change).arena = m.arena := by
  unfold onTop; split <;> rfl

@[simp] theorem generation_onTop (m : Machine) (change : Frame → Frame) :
    (m.onTop change).generation = m.generation := by
  unfold onTop; split <;> rfl

@[simp] theorem arena_flush (m : Machine) : m.flush.arena = m.arena := m.arena_onTop _

@[simp] theorem generation_flush (m : Machine) : m.flush.generation = m.generation :=
  m.generation_onTop _

@[simp] theorem generation_act (m : Machine) (a : Action) :
    (m.act a).generation = m.generation := by
  cases a <;> simp only [act, begin, become, becomeError, take, takeName, generation_onTop,
    generation_flush]
  · unfold wrapLast
    split
    · split <;> rfl
    · rfl
  · unfold close
    split <;> rfl

@[simp] theorem generation_perform (m : Machine) (actions : List Action) :
    (m.perform actions).generation = m.generation := by
  induction actions generalizing m with
  | nil => rfl
  | cons a rest ih => rw [perform_cons, ih, generation_act]

@[simp] theorem generation_step (m : Machine) (t : Token) :
    (m.step t).generation = m.generation := by
  rw [step_eq]
  exact m.generation_perform _

@[simp] theorem generation_receive (m : Machine) (l : Lexeme) :
    (m.receive l).generation = m.generation := by
  unfold receive
  induction l.leading generalizing m with
  | nil => rfl
  | cons t rest ih =>
    have held : (m.hold t).generation = m.generation := by
      unfold hold
      split <;> rfl
    rw [List.foldl_cons, ih, held]

/-! ## The nodes that are made -/

/-- A node that the parser makes is as wide as its children, is marked if there is an error in it,
and is stamped with the generation of the parser. -/
def Made (generation : UInt64) (l : Label) (children : List Element) : Prop :=
  Element.Measured l children ∧ Element.Marked l children ∧ l.generation = generation

/-- What holds of all that the parser has read, when its arena had `lo` nodes at first. -/
structure Sound (lo : Nat) (m : Machine) : Prop where
  made : Element.AllOf (Made m.generation) m.elements
  numbered : Element.Numbered lo m.arena.nodes m.elements
  low : lo ≤ m.arena.nodes

theorem Sound.of_same {lo : Nat} {m n : Machine} (h : Sound lo m)
    (elements : n.elements = m.elements) (arena : n.arena = m.arena)
    (generation : n.generation = m.generation) : Sound lo n := by
  obtain ⟨made, numbered, low⟩ := h
  exact ⟨by rwa [elements, generation], by rwa [elements, arena], by rwa [arena]⟩

theorem made_nextLabel (arena : Arena) (generation : UInt64) (kind : NodeKind) (name : Option Nat)
    (error : Option SyntaxError) (children : List Element) :
    Made generation (arena.nextLabel generation kind name error children) children :=
  ⟨rfl, rfl, rfl⟩

theorem Sound.leaf {lo : Nat} {m n : Machine} (h : Sound lo m) (t : Token)
    (elements : n.elements = m.elements ++ [Element.leaf t]) (nodes : n.arena.nodes = m.arena.nodes)
    (generation : n.generation = m.generation) : Sound lo n := by
  obtain ⟨made, ⟨nodup, bounds⟩, low⟩ := h
  refine ⟨?_, ⟨?_, ?_⟩, by rwa [nodes]⟩
  · rw [elements, generation]
    simpa [Element.AllOf, Element.All] using made
  · simpa [elements, Element.idsOf, Element.ids] using nodup
  · simpa [elements, nodes, Element.idsOf, Element.ids] using bounds

/-- A node around elements that have been read takes the next number. -/
theorem Sound.node {lo : Nat} {m n : Machine} (h : Sound lo m)
    (before inside after : List Element) (whole : m.elements = before ++ inside ++ after)
    {kind : NodeKind} {name : Option Nat} {error : Option SyntaxError} {arena : Arena}
    (nodes : arena.nodes = m.arena.nodes)
    (elements : n.elements = before ++
      [Element.node (arena.nextLabel m.generation kind name error inside) inside] ++ after)
    (next : n.arena.nodes = m.arena.nodes + 1) (generation : n.generation = m.generation) :
    Sound lo n := by
  obtain ⟨made, numbered, low⟩ := h
  rw [whole] at made numbered
  refine ⟨?_, ?_, by omega⟩
  · simp only [Element.allOf_append] at made
    simpa [elements, generation, Element.AllOf, Element.All, made] using made_nextLabel ..
  · rw [elements, next]
    exact numbered.wrap (by simp [Arena.nextLabel, nodes]) low

theorem Sound.act {lo : Nat} {m : Machine} (h : Sound lo m) {a : Action} (enabled : a.Enabled m) :
    Sound lo (m.act a) := by
  have inner (some : m.frames.tail ≠ []) : m.frames ≠ [] := fun none => some (by rw [none]; rfl)
  have generation := m.generation_act a
  cases a with
  | begin kind error =>
    exact h.of_same (elements_begin enabled kind error) m.arena_flush generation
  | become kind | becomeError error =>
    exact h.of_same (elements_onTop fun _ => rfl) (m.arena_onTop _) generation
  | wrapLast kind =>
    obtain ⟨_, f, top, l, children, others, hc, _⟩ := enabled
    obtain ⟨below, hm⟩ : ∃ below, m.frames = f :: below := List.head?_eq_some_iff.mp top
    exact h.of_same (elements_wrapLast hm (by simp [hc]) kind)
      (by simp [Machine.act, wrapLast, hm, hc]) generation
  | take t =>
    exact h.leaf t (elements_take (inner enabled) t) (by simp [Machine.act, take, Arena.addLeaf])
      generation
  | takeName t =>
    exact h.leaf t (elements_takeName (inner enabled.1) t)
      (by simp [Machine.act, takeName, take, Arena.addLeaf]) generation
  | close =>
    obtain ⟨f, g, below, hm, _⟩ := close_frames enabled
    obtain ⟨before, after⟩ := elements_close hm
    exact h.node _ _ _ before rfl after (by simp [Machine.act, Machine.close, hm, Arena.addNode])
      generation

theorem Sound.perform {lo : Nat} {m : Machine} (h : Sound lo m) {actions : List Action}
    (performs : m.Performs actions) : Sound lo (m.perform actions) := by
  induction actions generalizing m with
  | nil => exact h
  | cons a rest ih => exact ih (h.act performs.1) performs.2

theorem Sound.hold {lo : Nat} {m : Machine} (h : Sound lo m) (t : Token) : Sound lo (m.hold t) := by
  unfold Machine.hold
  split
  · exact h.leaf t (by simp [elements]) rfl rfl
  · have first : Sound lo { m with pending := m.pending ++ [Element.leaf t] } :=
      h.leaf t (by simp [elements]) rfl rfl
    exact first.node m.elements [.leaf t] [] (by simp [elements]) rfl
      (by simp only [elements, List.append_assoc, List.append_nil]; rfl) rfl rfl

theorem Sound.receive {lo : Nat} {m : Machine} (h : Sound lo m) (l : Lexeme) :
    Sound lo (m.receive l) := by
  unfold Machine.receive
  induction l.leading generalizing m with
  | nil => exact h
  | cons t rest ih => exact ih (h.hold t)

theorem Sound.step {origin : Origin} {base : Body} {lo : Nat} {m : Machine} (h : Sound lo m)
    (aligned : m.Aligned origin base) (t : Token) : Sound lo (m.step t) := by
  rw [step_eq]
  exact (h.perform (aligned.performs t)).of_same rfl rfl rfl

/-! ## The text that is read -/

theorem tokens_act {m : Machine} {a : Action} (enabled : a.Enabled m) :
    Element.tokensOf (m.act a).elements = Element.tokensOf m.elements ++ Action.takes [a] := by
  have inner (some : m.frames.tail ≠ []) : m.frames ≠ [] := fun none => some (by rw [none]; rfl)
  cases a with
  | begin kind error => simp [act, elements_begin enabled, Action.takes]
  | become kind =>
    have same : (m.become kind).elements = m.elements := elements_onTop fun _ => rfl
    simp [act, same, Action.takes]
  | becomeError error =>
    have same : (m.becomeError error).elements = m.elements := elements_onTop fun _ => rfl
    simp [act, same, Action.takes]
  | wrapLast kind =>
    obtain ⟨_, f, top, l, children, others, hc, _⟩ := enabled
    obtain ⟨below, hm⟩ : ∃ below, m.frames = f :: below := List.head?_eq_some_iff.mp top
    simp [act, elements_wrapLast hm (show f.children ≠ [] by simp [hc]), Action.takes]
  | take t =>
    simp [act, elements_take (inner enabled), Element.tokensOf, Element.tokens, Action.takes]
  | takeName t =>
    simp [act, elements_takeName (inner enabled.1), Element.tokensOf, Element.tokens, Action.takes]
  | close =>
    obtain ⟨f, g, below, hm, _⟩ := close_frames enabled
    obtain ⟨before, after⟩ := elements_close hm
    simp [act, before, after, ended, Element.tokensOf, Element.tokens, Action.takes]

/-- Actions add the tokens that they take, and nothing else. -/
theorem tokens_perform {m : Machine} {actions : List Action} (performs : m.Performs actions) :
    Element.tokensOf (m.perform actions).elements =
      Element.tokensOf m.elements ++ Action.takes actions := by
  induction actions generalizing m with
  | nil => simp [Action.takes]
  | cons a rest ih =>
    have split : Action.takes (a :: rest) = Action.takes [a] ++ Action.takes rest :=
      Action.takes_append [a] rest
    rw [perform_cons, ih performs.2, tokens_act performs.1, split, List.append_assoc]

theorem tokens_receive (m : Machine) (l : Lexeme) :
    Element.tokensOf (m.receive l).elements = Element.tokensOf m.elements ++ l.leading := by
  unfold receive
  induction l.leading generalizing m with
  | nil => simp
  | cons t rest ih =>
    have held : Element.tokensOf (m.hold t).elements = Element.tokensOf m.elements ++ [t] := by
      unfold hold
      split <;> simp [elements, Element.tokensOf, Element.tokens]
    rw [List.foldl_cons, ih, held, List.append_assoc, List.singleton_append]

/-- A step adds the token in sight to the tree if it takes it. -/
theorem tokens_step {origin : Origin} {base : Body} {m : Machine} (aligned : m.Aligned origin base)
    (t : Token) :
    ((m.step t).taken = m.taken ∧
      Element.tokensOf (m.step t).elements = Element.tokensOf m.elements) ∨
    ((m.step t).taken = m.taken + 1 ∧
      Element.tokensOf (m.step t).elements = Element.tokensOf m.elements ++ [t]) := by
  have adds := tokens_perform (aligned.performs t)
  rw [step_eq]
  obtain ⟨stays, none⟩ | ⟨goes, one⟩ := m.control.takes_step m.afterComma t
  · exact .inl ⟨stays, by rw [none, List.append_nil] at adds; exact adds⟩
  · exact .inr ⟨goes, by rw [one] at adds; exact adds⟩

@[simp] theorem frames_receive (m : Machine) (l : Lexeme) : (m.receive l).frames = m.frames := by
  unfold receive
  induction l.leading generalizing m with
  | nil => rfl
  | cons t rest ih =>
    have held : (m.hold t).frames = m.frames := by
      unfold hold
      split <;> rfl
    rw [List.foldl_cons, ih, held]

theorem Aligned.receive {origin : Origin} {base : Body} {m : Machine}
    (h : m.Aligned origin base) (l : Lexeme) : (m.receive l).Aligned origin base := by
  obtain ⟨nested, tucked, ready⟩ := h
  exact ⟨by simpa using nested, by simpa using tucked, by simpa using ready⟩

end Machine

/-- The tokens of lexemes, with the end of the text. -/
def Lexeme.tokens (ls : List Lexeme) : List Token := ls.flatMap fun l => l.leading ++ [l.token]

theorem Lexeme.tokens_group (leading ts : List Token) :
    Lexeme.tokens (Lexeme.group leading ts) = leading.reverse ++ ts ++ [Token.eof] := by
  unfold Lexeme.tokens
  fun_induction Lexeme.group leading ts with
  | case1 leading => simp
  | case2 leading t rest _ ih => simp [ih]
  | case3 leading t rest _ ih => simp [ih]

/-- Statements may begin anywhere. -/
def Origin.any : Origin := fun _ _ _ => True

namespace Reading

/-- What holds of a reading of some tokens, when the arena had `lo` nodes at first. -/
structure Sound (lo : Nat) (generation : UInt64) (base : Body) (tokens : List Token) (r : Reading) :
    Prop where
  aligned : r.machine.Aligned .any base
  built : r.machine.Sound lo
  stamp : r.machine.generation = generation
  /-- What has been read, the token in sight and the lexemes that follow are all tokens. -/
  whole : Element.tokensOf r.machine.elements ++ r.token :: Lexeme.tokens r.rest = tokens

/-- What has been read, the token in sight and the lexemes that follow stay the same tokens. -/
theorem tokens_next {base : Body} {r r' : Reading} (aligned : r.machine.Aligned .any base)
    (next : Next r r') :
    Element.tokensOf r'.machine.elements ++ r'.token :: Lexeme.tokens r'.rest =
      Element.tokensOf r.machine.elements ++ r.token :: Lexeme.tokens r.rest := by
  cases next with
  | @stay m t rest some stays =>
    obtain ⟨_, same⟩ | ⟨goes, _⟩ := Machine.tokens_step (m := m) aligned t
    · rw [same]
    · omega
  | @move m t l rest takes =>
    obtain ⟨stays, _⟩ | ⟨_, more⟩ := Machine.tokens_step (m := m) aligned t
    · omega
    · simp [start, Machine.tokens_receive, more, Lexeme.tokens]

theorem Sound.next {lo : Nat} {generation : UInt64} {base : Body} {tokens : List Token}
    {r r' : Reading} (h : r.Sound lo generation base tokens) (next : Next r r') :
    r'.Sound lo generation base tokens := by
  obtain ⟨aligned, built, stamp, whole⟩ := h
  have whole' := (tokens_next aligned next).trans whole
  cases next with
  | @stay m t rest some stays =>
    replace aligned : m.Aligned .any base := aligned
    exact ⟨aligned.step t (fun _ _ _ => trivial), built.step aligned t, by simpa using stamp, whole'⟩
  | @move m t l rest takes =>
    replace aligned : m.Aligned .any base := aligned
    exact ⟨(aligned.step t (fun _ _ _ => trivial)).receive l, (built.step aligned t).receive l,
      by simpa [start] using stamp, whole'⟩

theorem Sound.reaches {lo : Nat} {generation : UInt64} {base : Body} {tokens : List Token}
    {r r' : Reading} (h : r.Sound lo generation base tokens) (way : Reaches r r') :
    r'.Sound lo generation base tokens := by
  induction way with
  | refl => exact h
  | tail _ next ih => exact ih.next next

end Reading

/-! ## The parser from its start on -/

/-- What the parser is asked to read at first. -/
inductive Goal.Task : Body → List Goal → Prop
  | document : Task .document [.items .document, .leftovers]
  | statement (body : Body) : Task body [.item body]

namespace Machine

variable {origin : Origin} {base : Body} {goals : List Goal}

theorem aligned_start (task : Goal.Task base goals) (arena : Arena) (generation : UInt64)
    (blocks : Nat) : (start arena generation blocks goals).Aligned origin base := by
  have site (body : Body) {rest : List Goal} (none : rest.count .leaveBlock = 0) :
      Site body body rest .document [] :=
    ⟨by simp, by simp, by simp, by simp [none, NodeKind.hasBlock]⟩
  cases task with
  | document =>
    exact aligned_of_tucked (by simp [start, Nested, Goal.Fits, site])
      (by simp [start, Goal.Tucked])
  | statement body =>
    exact aligned_of_tucked (by simpa [start, Nested, Goal.Fits] using site _ List.count_nil)
      (by simp [start, Goal.Tucked])

theorem steady_start (task : Goal.Task base goals) (arena : Arena) (generation : UInt64)
    (blocks : Nat) : (start arena generation blocks goals).Steady := by
  cases task with
  | document => exact ⟨⟨trivial, trivial, trivial⟩, nofun⟩
  | statement body => exact ⟨⟨rfl, trivial⟩, nofun⟩

theorem sound_start (arena : Arena) (generation : UInt64) (blocks : Nat) (goals : List Goal) :
    (start arena generation blocks goals).Sound arena.nodes :=
  ⟨trivial, .nil _ _, Nat.le_refl _⟩

/-- What holds of the parser when a text is in sight that it is to read. -/
theorem sound_ofText (task : Goal.Task base goals) (arena : Arena) (generation : UInt64)
    (blocks : Nat) (text : Bytes) :
    (Reading.ofText (start arena generation blocks goals) text).machine.Steady ∧
      (Reading.ofText (start arena generation blocks goals) text).Sound arena.nodes generation base
        (Token.all text ++ [Token.eof]) := by
  obtain ⟨l, rest, hl, -⟩ := lexemes_eq_cons text
  have all := Lexeme.tokens_group [] (Token.all text)
  change Lexeme.tokens (lexemes text) = _ at all
  rw [hl] at all
  unfold Reading.ofText
  rw [hl]
  refine ⟨(steady_start task ..).receive l, (aligned_start task ..).receive l,
    (sound_start ..).receive l, by simp [Reading.start, start], ?_⟩
  change Element.tokensOf (receive _ l).elements ++ l.token :: Lexeme.tokens rest = _
  rw [tokens_receive]
  simpa [Lexeme.tokens, start, elements, Frame.listed, Element.tokensOf] using all

theorem leftovers_step {m : Machine} (steady : m.Steady) {t : Token} (more : t.kind ≠ .eof)
    (h : .leftovers ∈ m.goals) : .leftovers ∈ (m.step t).goals := by
  change Goal.leftovers ∈ (m.step t).control.goals
  rw [control_step]
  cases hg : m.goals with
  | nil => simp [hg] at h
  | cons g rest =>
    by_cases first : g = .leftovers
    · subst first
      have ok : m.control.ok = true := by
        rcases Bool.eq_false_or_eq_true m.control.ok with ok | failed
        · exact ok
        · have guard := steady.guarded failed
          simp [control, hg, Goal.guarded] at guard
      simp [Control.step, Control.work, Control.push, control, hg, more] at ok ⊢
      simp [ok]
    · rw [hg] at h
      exact (Control.suffix_step hg m.afterComma t).subset
        ((List.mem_cons.mp h).resolve_left (Ne.symm first))

/-- Until the end of the text is in sight, tokens that belong to nothing are still to be read. -/
theorem leftovers_or_eof {r r' : Reading} (way : Reading.Reaches r r') (steady : r.machine.Steady)
    (h : .leftovers ∈ r.machine.goals ∨ r.token.kind = .eof) :
    .leftovers ∈ r'.machine.goals ∨ r'.token.kind = .eof := by
  induction way with
  | refl => exact h
  | @tail r₁ r₂ before next ih =>
    have steady : r₁.machine.Steady := Steady.of_reaches before steady
    by_cases eof : r₁.token.kind = .eof
    · cases next with
      | stay => exact .inr eof
      | @move m t l rest takes =>
        have stays : (m.step t).taken = m.taken := steady.taken_eof eof
        omega
    · have more := leftovers_step steady eof (ih.resolve_right eof)
      cases next with
      | stay => exact .inl more
      | move => exact .inl (by simpa [Reading.start] using more)

/-- The outermost node holds all that has been read when no other is open. -/
theorem contents_flush {m : Machine} {f : Frame} (hm : m.frames = [f]) :
    m.flush.contents = m.elements := by
  simp [contents, flush, onTop, hm, elements, Frame.listed]

/-- When nothing is left to do, only the outermost node is open. -/
theorem Aligned.one_frame {m : Machine} (h : m.Aligned origin base)
    (done : m.goals = []) : ∃ f, m.frames = [f] ∧ f.kind = .document := by
  have nested := h.nested
  rw [done] at nested
  cases hm : m.frames with
  | nil => simp [hm, Nested] at nested
  | cons f below =>
    rw [hm] at nested
    exact ⟨f, by rw [nested.2], nested.1⟩

/-- Reading a document ends at the end of the text. -/
theorem document_reaches (arena : Arena) (generation : UInt64) (text : Bytes) :
    let first := start arena generation 0 [.items .document, .leftovers]
    ∃ t, Reading.Reaches (.ofText first text) ⟨first.run (lexemes text), t, []⟩ ∧
      (first.run (lexemes text)).goals = [] ∧ t.kind = .eof ∧
      Element.tokensOf (first.run (lexemes text)).elements = Token.all text := by
  intro first
  obtain ⟨t, rest, way, done⟩ := run_ofText (steady_start .document arena generation 0) text
  obtain ⟨steady, sound⟩ := sound_ofText .document arena generation 0 text
  have whole := (sound.reaches way).whole
  have eof : t.kind = .eof := by
    obtain more | eof := leftovers_or_eof way steady (.inl (by
      obtain ⟨l, rest, hl, -⟩ := lexemes_eq_cons text
      simp [Reading.ofText, hl, Reading.start, start]))
    · simp [done] at more
    · exact eof
  -- The end of the text is the last token, so that all tokens before it have been read.
  obtain ⟨a, all, next⟩ | ⟨c, read, last⟩ := List.append_eq_append_iff.mp whole
  · cases a with
    | nil =>
      have none : rest = [] := by
        cases rest with
        | nil => rfl
        | cons l rest => simp [Lexeme.tokens] at next
      subst none
      exact ⟨t, way, done, eof, by simpa using all.symm⟩
    | cons t' others =>
      obtain ⟨rfl, _⟩ := List.cons.inj next
      exact absurd eof (Token.kind_ne_eof (s := text) (by simp [all]))
  · cases c with
    | nil =>
      have none : rest = [] := by
        cases rest with
        | nil => rfl
        | cons l rest => simp [Lexeme.tokens] at last
      subst none
      exact ⟨t, way, done, eof, by simpa using read⟩
    | cons => simp at last

theorem run_document (arena : Arena) (generation : UInt64) (text : Bytes) :
    let last := (start arena generation 0 [.items .document, .leftovers]).run (lexemes text)
    (∃ f, last.frames = [f] ∧ f.kind = .document) ∧ last.Sound arena.nodes ∧
      last.generation = generation ∧ Element.tokensOf last.elements = Token.all text := by
  intro last
  obtain ⟨t, way, done, _, tokens⟩ := document_reaches arena generation text
  obtain ⟨_, first⟩ := sound_ofText .document arena generation 0 text
  obtain ⟨aligned, built, stamp, _⟩ := first.reaches way
  exact ⟨aligned.one_frame done, built, stamp, tokens⟩

/-- Reading a statement takes the first tokens of the text. -/
theorem run_statement (body : Body) (arena : Arena) (generation : UInt64) (blocks : Nat)
    (text : Bytes) :
    let last := (start arena generation blocks [.item body]).run (lexemes text)
    last.Sound arena.nodes ∧ last.generation = generation ∧
      last.elements = last.contents ++ last.pending ∧
      ∃ more, Token.all text = Element.tokensOf last.contents ++ more := by
  intro last
  have task := Goal.Task.statement body
  obtain ⟨t, rest, way, done⟩ := run_ofText (steady_start task arena generation blocks) text
  obtain ⟨-, first⟩ := sound_ofText task arena generation blocks text
  obtain ⟨aligned, built, stamp, whole⟩ := first.reaches way
  obtain ⟨f, hf, _⟩ := aligned.one_frame done
  replace hf : last.frames = [f] := hf
  have split : last.elements = last.contents ++ last.pending := by
    simp [elements, contents, hf, Frame.listed]
  refine ⟨built, stamp, split, ?_⟩
  change Element.tokensOf last.elements ++ t :: Lexeme.tokens rest = _ at whole
  rw [split, Element.tokensOf_append, List.append_assoc] at whole
  obtain ⟨a, all, _⟩ | ⟨c, read, last⟩ := List.append_eq_append_iff.mp whole
  · exact ⟨a, all⟩
  · cases c with
    | nil => exact ⟨[], by simpa using read.symm⟩
    | cons => simp at last

end Machine

end AvroIdl
