import AvroIdl.Parser.Run
import AvroIdl.Proofs.Parser.Actions
import AvroIdl.Proofs.Tree.Undated

/-!
# Stamps make no difference to reading

The parser stamps nodes with a generation and never looks at it. So a run that stamps with one
generation is, without stamps, a run that stamps with another: `Machine.undated_run`. Trees of one
text differ in their stamps only, `Tree.undated_parse`.
-/

namespace AvroIdl

/-- An open node without stamps. -/
def Frame.undated (f : Frame) : Frame := { f with children := f.children.map Element.undated }

theorem Arena.nextLabel_undated (a : Arena) (g : UInt64) (kind : NodeKind) (name : Option Nat)
    (error : Option SyntaxError) (children : List Element) :
    (a.nextLabel g kind name error children).undated =
      a.nextLabel 0 kind name error (children.map Element.undated) := by
  have widths : (children.map Element.undated).foldr (fun e n => e.width + n) 0 =
      children.foldr (fun e n => e.width + n) 0 := by
    rw [List.foldr_map]
    simp only [Element.width_undated]
  have errors : (children.map Element.undated).any Element.hasError =
      children.any Element.hasError := by
    rw [List.any_map]
    congr 1
    funext e
    exact e.hasError_undated
  rw [nextLabel, nextLabel, widths, errors]
  rfl

namespace Machine

/-- A parser that has stamped nothing. -/
def undated (m : Machine) : Machine :=
  { m with
    generation := 0
    frames := m.frames.map Frame.undated
    pending := m.pending.map Element.undated }

theorem undated_onTop (m : Machine) {f g : Frame → Frame}
    (comm : ∀ frame, (f frame).undated = g frame.undated) :
    (m.onTop f).undated = m.undated.onTop g := by
  obtain ⟨arena, generation, frames, pending, goals, ok, taken, blocks⟩ := m
  cases frames with
  | nil => rfl
  | cons top below => simp [undated, onTop, comm]

theorem undated_flush (m : Machine) : m.flush.undated = m.undated.flush := by
  have top := m.undated_onTop (f := fun f => { f with children := m.pending.reverse ++ f.children })
    (g := fun f => { f with children := m.undated.pending.reverse ++ f.children })
    fun frame => by simp [Frame.undated, undated]
  rw [flush, flush, ← top]
  rfl

theorem undated_take (m : Machine) (t : Token) : (m.take t).undated = m.undated.take t := by
  have top := m.flush.undated_onTop (f := fun f => { f with children := .leaf t :: f.children })
    (g := fun f => { f with children := .leaf t :: f.children })
    fun frame => by simp [Frame.undated]
  rw [undated_flush] at top
  rw [take, take, ← top]
  rfl

theorem undated_takeName (m : Machine) (t : Token) :
    (m.takeName t).undated = m.undated.takeName t := by
  have top := m.flush.undated_onTop (f := fun f => { f with name := some f.children.length })
    (g := fun f => { f with name := some f.children.length })
    fun frame => by simp [Frame.undated]
  rw [undated_flush] at top
  rw [takeName, takeName, undated_take, ← top]

theorem undated_wrapLast (m : Machine) (kind : NodeKind) :
    (m.wrapLast kind).undated = m.undated.wrapLast kind := by
  obtain ⟨arena, generation, frames, pending, goals, ok, taken, blocks⟩ := m
  cases frames with
  | nil => rfl
  | cons top below =>
    obtain ⟨kind', name, error, children⟩ := top
    cases children <;> rfl

theorem undated_close (m : Machine) : m.close.undated = m.undated.close := by
  obtain ⟨arena, generation, frames, pending, goals, ok, taken, blocks⟩ := m
  match frames with
  | [] => rfl
  | [_] => rfl
  | f :: parent :: below =>
    simp [close, undated, Frame.undated, Arena.nextLabel_undated]

theorem undated_act (m : Machine) (a : Action) : (m.act a).undated = m.undated.act a := by
  cases a with
  | begin kind error =>
    simp only [act, begin, ← undated_flush]
    rfl
  | become kind => exact m.undated_onTop fun _ => rfl
  | becomeError error => exact m.undated_onTop fun _ => rfl
  | take t => exact m.undated_take t
  | takeName t => exact m.undated_takeName t
  | wrapLast kind => exact m.undated_wrapLast kind
  | close => exact m.undated_close

theorem undated_perform (m : Machine) (actions : List Action) :
    (m.perform actions).undated = m.undated.perform actions := by
  induction actions generalizing m with
  | nil => rfl
  | cons a rest ih => rw [perform_cons, perform_cons, ih, undated_act]

theorem afterComma_undated (m : Machine) : m.undated.afterComma = m.afterComma := by
  obtain ⟨arena, generation, frames, pending, goals, ok, taken, blocks⟩ := m
  cases frames with
  | nil => rfl
  | cons top below =>
    obtain ⟨kind', name, error, children⟩ := top
    cases children with
    | nil => rfl
    | cons e rest => cases e <;> rfl

theorem undated_step (m : Machine) (t : Token) : (m.step t).undated = m.undated.step t := by
  have control : m.undated.control = m.control := rfl
  rw [step_eq, step_eq, control, afterComma_undated, ← undated_perform]
  rfl

theorem undated_hold (m : Machine) (t : Token) : (m.hold t).undated = m.undated.hold t := by
  unfold hold
  cases t.error with
  | none => simp [undated]
  | some cause => simp [undated, Arena.nextLabel_undated]

theorem undated_receive (m : Machine) (l : Lexeme) :
    (m.receive l).undated = m.undated.receive l := by
  unfold receive
  induction l.leading generalizing m with
  | nil => rfl
  | cons t rest ih => rw [List.foldl_cons, List.foldl_cons, ih, undated_hold]

theorem undated_settle (t : Token) (n : Nat) (m : Machine) :
    (m.settle t n).undated = m.undated.settle t n := by
  induction n generalizing m with
  | zero => rfl
  | succ n ih =>
    have goals : m.undated.goals = m.goals := rfl
    have taken (m : Machine) : m.undated.taken = m.taken := rfl
    rw [settle, settle, goals]
    dsimp only
    rw [← undated_step, taken, taken]
    split_ifs
    · rfl
    · rfl
    · exact ih _

theorem undated_feed (m : Machine) (l : Lexeme) : (m.feed l).undated = m.undated.feed l := by
  rw [feed, feed, undated_settle, ← undated_receive]
  rfl

theorem undated_run (m : Machine) (ls : List Lexeme) : (m.run ls).undated = m.undated.run ls := by
  induction ls generalizing m with
  | nil => rfl
  | cons l rest ih =>
    have taken (m : Machine) : m.undated.taken = m.taken := rfl
    rw [run, run, ← undated_feed, taken, taken]
    split_ifs
    · exact ih _
    · rfl

theorem contents_undated (m : Machine) : m.undated.contents = m.contents.map Element.undated := by
  rw [contents, contents, undated, List.getLast?_map]
  cases m.frames.getLast? <;> simp [Frame.undated]

end Machine

namespace Tree

theorem undated_tooLong (arena : Arena) (opts : ParseOptions) (text : Bytes) :
    (tooLong arena opts text).undated = tooLong arena { opts with generation := 0 } text := by
  simp [tooLong, undated, Label.undated]

/-- Without its stamps the tree of a text is the one that is read as generation zero. -/
theorem undated_parseIn (arena : Arena) (opts : ParseOptions) (text : Bytes) :
    (parseIn arena opts text).undated = parseIn arena { opts with generation := 0 } text := by
  unfold parseIn
  dsimp only
  split_ifs
  · exact undated_tooLong arena opts text
  · have run : ((Machine.start arena 0 0 [.items .document, .leftovers]).run (lexemes text)).flush =
        ((Machine.start arena opts.generation 0 [.items .document, .leftovers]).run
          (lexemes text)).flush.undated := by
      rw [Machine.undated_flush, Machine.undated_run]
      rfl
    rw [run, Machine.contents_undated, undated]
    simp only [Arena.nextLabel_undated]
    rfl

theorem undated_parse (text : Bytes) (opts : ParseOptions) :
    (parse text opts).undated = parse text { opts with generation := 0 } :=
  undated_parseIn {} opts text

end Tree

end AvroIdl
