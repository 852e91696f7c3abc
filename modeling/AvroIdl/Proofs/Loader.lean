import AvroIdl.Loader
import AvroIdl.Proofs.Association
import AvroIdl.Proofs.Path

/-!
# What is loaded

What is loaded is the text of a file, under the shortest path to it. So there are no more URIs to
load from than files, but for the names of the directories that every file tree has:
`Loader.places`.
-/

namespace AvroIdl

namespace Loader

variable {l : Loader} {source path uri text : Bytes}

theorem of_loadFirst {candidates : List Bytes}
    (found : l.loadFirst path candidates = .ok (uri, text)) :
    uri ∈ candidates ∧ l.files.file? uri = some text := by
  induction candidates with
  | nil => contradiction
  | cons place rest ih =>
    rw [loadFirst] at found
    cases file : l.files.file? place with
    | none =>
      rw [file] at found
      exact (ih found).imp_left (.tail _)
    | some content =>
      rw [file] at found
      dsimp only at found
      split_ifs at found
      obtain ⟨rfl, rfl⟩ := Prod.mk.inj (Except.ok.inj found)
      exact ⟨List.mem_cons_self, file⟩

/-- What is loaded is what the file at the place holds. -/
theorem file?_of_load (found : l.load source path = .ok (uri, text)) :
    l.files.file? uri = some text := (of_loadFirst found).2

theorem clean_of_join {dir p : Bytes} : Path.join dir p = [] ∨
    Path.clean (Path.join dir p) = Path.join dir p := by
  unfold Path.join
  split_ifs
  · exact .inr (Path.clean_clean _)
  · exact .inr (Path.clean_clean _)
  · exact .inl rfl

theorem clean_of_candidate (mem : uri ∈ l.candidates source path) :
    uri = [] ∨ Path.clean uri = uri := by
  unfold candidates at mem
  split_ifs at mem
  · obtain rfl := List.mem_singleton.mp mem
    exact .inr (Path.clean_clean path)
  · rcases List.mem_cons.mp mem with rfl | mem
    · exact clean_of_join
    · obtain ⟨dir, -, rfl⟩ := List.mem_map.mp mem
      exact clean_of_join

/-- The places where something can be loaded. -/
def places (l : Loader) : List Bytes :=
  [] :: Path.here :: Path.up :: l.files.entries.map Prod.fst

theorem mem_places_of_load (found : l.load source path = .ok (uri, text)) : uri ∈ l.places := by
  obtain ⟨candidate, file⟩ := of_loadFirst found
  obtain ⟨entry, kept, -⟩ := Option.bind_eq_some_iff.mp file
  have mem : FileTree.key uri ∈ l.files.entries.map Prod.fst :=
    List.mem_map.mpr ⟨_, mem_of_lookup kept, rfl⟩
  rcases clean_of_candidate candidate with rfl | clean
  · exact List.mem_cons_self
  · rw [FileTree.key, clean] at mem
    split_ifs at mem with above
    · simp only [Bool.or_eq_true, decide_eq_true_eq] at above
      rcases above with rfl | rfl <;> simp [places]
    · exact .tail _ (.tail _ (.tail _ mem))

end Loader

end AvroIdl
