import Mathlib.Data.List.Nodup

/-!
# Association lists

In a list of pairs with distinct keys a key is looked up to the value that stands beside it.
-/

namespace AvroIdl

variable {α β : Type} [BEq α] [LawfulBEq α] {entries : List (α × β)} {k : α} {b : β}

theorem mem_of_lookup (found : entries.lookup k = some b) : (k, b) ∈ entries := by
  obtain ⟨before, after, rfl, -⟩ := List.lookup_eq_some_iff.mp found
  simp

theorem lookup_eq_some_iff_mem (distinct : (entries.map Prod.fst).Nodup) :
    entries.lookup k = some b ↔ (k, b) ∈ entries := by
  refine ⟨mem_of_lookup, fun mem => ?_⟩
  obtain ⟨before, after, rfl⟩ := List.append_of_mem mem
  refine List.lookup_eq_some_iff.mpr ⟨before, after, rfl, fun p here => ?_⟩
  rw [List.map_append, List.map_cons, List.nodup_append] at distinct
  have other : p.1 ≠ k := distinct.2.2 _ (List.mem_map_of_mem here) _ List.mem_cons_self
  simpa using Ne.symm other

end AvroIdl
