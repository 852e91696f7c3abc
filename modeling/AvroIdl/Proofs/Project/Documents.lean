import AvroIdl.Proofs.Project.Timeline
import AvroIdl.Proofs.Symbol.Spelling
import AvroIdl.Proofs.Tree.Formed

/-!
# The documents of a project

Whatever is asked of a project, each of its documents is indexed from a tree that has the form of a
tree, its types are spelled as they should, and serial numbers tell the documents of a snapshot
apart: `Timeline.proper_of_taken`.
-/

namespace AvroIdl

namespace Document

/-- A document as reading and editing leave it. -/
structure Proper (d : Document) : Prop where
  indexed : d.Indexed
  formed : ∀ t, d.tree? = some t → t.Formed
  spells : d.table.Spells

theorem ofTree_proper (serial : Nat) (uri : Bytes) (kind : DocumentKind) {tree : Tree}
    (lossless : tree.Lossless) (formed : tree.Formed) : (ofTree serial uri kind tree).Proper := by
  refine ⟨ofTree_indexed serial uri kind lossless, fun t eq => ?_, Table.spells_ofTree serial uri tree⟩
  obtain rfl : tree = t := Option.some.inj ((Table.of_ofTree serial uri tree).tree.symm.trans eq)
  exact formed

theorem read_proper (serial : Nat) (uri : Bytes) (kind : DocumentKind) (text : Bytes)
    (opts : ParseOptions) : (read serial uri kind text opts).Proper := by
  have json := Table.of_ofJsonText serial uri text opts.generation
  cases kind with
  | idl =>
    rw [read_idl]
    exact ofTree_proper _ _ _ (Tree.parseIn_lossless ..) (Tree.parse_formed text opts)
  | protocol | schema =>
    refine ⟨read_indexed .., fun t eq => ?_,
      Table.spells_ofJsonText serial uri text opts.generation⟩
    exact absurd (json.tree.symm.trans eq) (by simp)

end Document

namespace Project

variable {p p' : Project} {d old : Document}

theorem edited_proper (limit : p.options.maxSize ≤ maxOffset) (h : old.Proper) {edit : Edit}
    (edited : p.edited old edit = .ok d) : d.Proper ∧ d.serial = p.serial := by
  rcases edited_cases edited with ⟨tree, r, ofTree, reparsed, rfl⟩ | ⟨text, -, -, rfl⟩
  · obtain ⟨-, lossless, -⟩ := h.indexed.ofTree tree ofTree
    refine ⟨Document.ofTree_proper _ _ _ (Tree.reparse_lossless reparsed lossless).1 ?_, ?_⟩
    · exact Tree.reparse_formed reparsed limit lossless (h.formed tree ofTree)
    · exact (Table.of_ofTree ..).serial
  · exact ⟨Document.read_proper .., Document.serial_read ..⟩

theorem Made.proper (made : p.Made d) (limit : p.options.maxSize ≤ maxOffset)
    (docs : ∀ e ∈ p.now.docs, e.Proper) : d.Proper ∧ d.serial = p.serial := by
  cases made with
  | read uri kind text generation eq =>
    subst eq
    exact ⟨Document.read_proper .., Document.serial_read ..⟩
  | edited old loaded edit eq => exact edited_proper limit (docs old loaded) eq

end Project

/-- All documents are proper, and serial numbers tell them apart. -/
structure Snapshot.Proper (s : Snapshot) : Prop where
  docs : ∀ d ∈ s.docs, d.Proper
  told : ∀ a ∈ s.docs, ∀ b ∈ s.docs, a.serial = b.serial → a = b

/-- A project whose documents are proper and older than the next one. -/
structure Project.Proper (p : Project) : Prop where
  limit : p.options.maxSize ≤ maxOffset
  now : p.now.Proper
  older : ∀ d ∈ p.now.docs, d.serial < p.serial

namespace Project

variable {p p' : Project}

/-- Every operation keeps documents proper. -/
theorem Proper.changes (h : p.Proper) (changes : p.Changes p') : p'.Proper := by
  cases changes with
  | keeps k =>
    refine ⟨by rw [k.options]; exact h.limit, ⟨fun d mem => h.now.docs d (k.docs mem), ?_⟩, ?_⟩
    · exact fun a ha b hb => h.now.told a (k.docs ha) b (k.docs hb)
    · intro d mem
      rw [k.serial]
      exact h.older d (k.docs mem)
  | publishes d made indexed follows docs entries options serial =>
    obtain ⟨proper, number⟩ := made.proper h.limit h.now.docs
    have known (e : Document) (mem : e ∈ p'.now.docs) : e = d ∨ e ∈ p.now.docs :=
      (docs e mem).imp_right And.left
    refine ⟨by rw [options]; exact h.limit, ⟨fun e mem => ?_, fun a ha b hb same => ?_⟩,
      fun e mem => ?_⟩
    · rcases known e mem with rfl | mem
      · exact proper
      · exact h.now.docs e mem
    · -- The new document has a serial number that none of the others has.
      rcases known a ha, known b hb with ⟨rfl | ha, rfl | hb⟩
      · rfl
      · exact absurd (same.symm.trans number) (Nat.ne_of_lt (h.older b hb))
      · exact absurd (same.trans number) (Nat.ne_of_lt (h.older a ha))
      · exact h.now.told a ha b hb same
    · rw [serial]
      rcases known e mem with rfl | mem
      · omega
      · exact Nat.lt_succ_of_lt (h.older e mem)

end Project

namespace Timeline

theorem proper_after {t : Timeline} (h : t.project.Proper) (e : Event) : (t.after e).Proper := by
  cases e with
  | openDocument uri text => exact h.changes (t.project.changes_openDocument uri text)
  | update uri edit =>
    exact h.changes (t.project.changes_update uri edit fun d mem => (h.now.docs d mem).indexed)
  | closeDocument uri => exact h.changes (.keeps (t.project.keeps_closeDocument uri))
  | refresh => exact h.changes (.keeps t.project.keeps_refresh)
  | finishLoad key outcome => exact h.changes (t.project.changes_finishLoad key outcome)
  | resolve number uri => exact ⟨h.limit, h.now, h.older⟩
  | references number => exact ⟨h.limit, h.now, h.older⟩

/-- The documents of all snapshots that were ever taken are proper. -/
theorem proper_of_taken {options : ProjectOptions} (limit : options.maxSize ≤ maxOffset)
    (events : List Event) {s : Snapshot} (taken : s ∈ (run options events).taken) : s.Proper := by
  suffices all : (run options events).project.Proper ∧
      ∀ s ∈ (run options events).earlier, s.Proper by
    rcases List.mem_cons.mp taken with rfl | earlier
    · exact all.1.now
    · exact all.2 s earlier
  clear taken
  induction events using List.reverseRecOn with
  | nil =>
    have none : ∀ d : Document, d ∉ (run options []).project.now.docs := fun d => List.not_mem_nil
    exact ⟨⟨limit, ⟨fun d mem => absurd mem (none d), fun d mem => absurd mem (none d)⟩,
      fun d mem => absurd mem (none d)⟩, fun s mem => absurd mem List.not_mem_nil⟩
  | append_singleton events e ih =>
    rw [run_concat]
    refine ⟨proper_after ih.1 e, fun s mem => ?_⟩
    rcases List.mem_cons.mp mem with rfl | earlier
    · exact ih.1.now
    · exact ih.2 s earlier

end Timeline

end AvroIdl
