import AvroIdl.Proofs.Check.Graph
import Mathlib.Data.List.Chain

/-!
# Shortest import cycles

The search for a cycle takes up documents in the order of their distance from the start:
`ImportGraph.Layered`. So no way that is still pending leads back to the start by fewer documents
than the first one that closes, `ImportGraph.closeCycle?_le`, and no cycle through the start is
shorter than the one that is found, `ImportGraph.shortestCycle?_shortest`.
-/

namespace AvroIdl

namespace ImportGraph

variable {g : ImportGraph} {start u v : Bytes} {path rest remaining members : List Bytes}

/-! ## Round trips -/

/-- A way along import statements from a document back to it. -/
structure RoundTrip (g : ImportGraph) (u : Bytes) (path : List Bytes) : Prop where
  first : path.head? = some u
  last : path.getLast? = some u
  imports : path.IsChain g.Imports
  steps : 2 ≤ path.length

theorem roundTrip_of_isChain (imports : (u :: rest ++ [u]).IsChain g.Imports) :
    g.RoundTrip u (u :: rest ++ [u]) :=
  ⟨rfl, List.getLast?_concat, imports, by simp⟩

theorem RoundTrip.eq_append (trip : g.RoundTrip u path) : ∃ rest, path = u :: rest ++ [u] := by
  obtain ⟨first, last, -, steps⟩ := trip
  obtain ⟨ending, rfl⟩ := List.head?_eq_some_iff.mp first
  have further : ending ≠ [] := by
    rintro rfl
    simp at steps
  rw [List.getLast?_cons_of_ne_nil further] at last
  obtain ⟨rest, rfl⟩ := List.getLast?_eq_some_iff.mp last
  exact ⟨rest, rfl⟩

theorem reaches_of_isChain (imports : (u :: rest ++ [v]).IsChain g.Imports) : g.Reaches u v := by
  induction rest generalizing u with
  | nil => exact .single imports.rel
  | cons w rest ih =>
    obtain ⟨edge, imports⟩ := List.isChain_cons_cons.mp imports
    exact .head edge (ih imports)

theorem exists_roundTrip (cycle : g.Reaches u u) : ∃ path, g.RoundTrip u path := by
  obtain ⟨w, path, edge⟩ := Relation.TransGen.tail'_iff.mp cycle
  obtain ⟨rest, imports, last⟩ := List.exists_isChain_cons_of_relationReflTransGen path
  refine ⟨u :: rest ++ [u], roundTrip_of_isChain (imports.append (.singleton u) ?_)⟩
  simpa [List.getLast?_eq_some_getLast, last] using edge

/-- A round trip leads to each other document on it and back. -/
theorem RoundTrip.split (trip : g.RoundTrip u path) (mem : v ∈ path) (other : v ≠ u) :
    ∃ there back, path = u :: there ++ v :: (back ++ [u]) ∧
      (u :: there ++ [v]).IsChain g.Imports ∧ (v :: back ++ [u]).IsChain g.Imports := by
  obtain ⟨rest, rfl⟩ := trip.eq_append
  have mem : v ∈ rest := by simpa [other] using mem
  obtain ⟨there, back, rfl⟩ := List.append_of_mem mem
  have whole : u :: (there ++ v :: back) ++ [u] = u :: there ++ v :: (back ++ [u]) := by simp
  exact ⟨there, back, whole, List.isChain_split.mp (whole ▸ trip.imports)⟩

/-- All documents of a round trip lie on one cycle. -/
theorem RoundTrip.sameCycle (trip : g.RoundTrip u path) (mem : v ∈ path) : g.SameCycle u v := by
  by_cases same : v = u
  · obtain ⟨rest, rfl⟩ := trip.eq_append
    have around := reaches_of_isChain trip.imports
    rw [same]
    exact ⟨around, around⟩
  · obtain ⟨there, back, -, out, home⟩ := trip.split mem same
    exact ⟨reaches_of_isChain out, reaches_of_isChain home⟩

/-- A round trip can be started at each of its documents. -/
theorem RoundTrip.rotate (trip : g.RoundTrip u path) (mem : v ∈ path) :
    ∃ path', g.RoundTrip v path' ∧ path'.length = path.length := by
  by_cases same : v = u
  · exact ⟨path, same ▸ trip, rfl⟩
  · obtain ⟨there, back, rfl, out, home⟩ := trip.split mem same
    have around : (v :: back ++ u :: (there ++ [v])).IsChain g.Imports :=
      List.isChain_split.mpr ⟨home, out⟩
    refine ⟨v :: (back ++ u :: there) ++ [v], roundTrip_of_isChain (by simpa using around), ?_⟩
    simp
    omega

/-- What lies between two visits of a document can be left out. -/
theorem RoundTrip.exists_shorter (trip : g.RoundTrip u path) (repeated : ¬ path.tail.Nodup) :
    ∃ path', g.RoundTrip u path' ∧ path'.length < path.length := by
  obtain ⟨ending, rfl⟩ := List.head?_eq_some_iff.mp trip.first
  obtain ⟨x, twice⟩ : ∃ x, [x, x].Sublist ending := by
    simpa [List.nodup_iff_sublist] using repeated
  obtain ⟨front, back, rfl, early, late⟩ := List.cons_sublist_iff.mp twice
  obtain ⟨a, b, rfl⟩ := List.append_of_mem early
  obtain ⟨b', c, rfl⟩ := List.append_of_mem (List.singleton_sublist.mp late)
  have whole : u :: (a ++ x :: b ++ (b' ++ x :: c)) = (u :: a ++ x :: (b ++ b')) ++ x :: c := by simp
  obtain ⟨-, last, imports, -⟩ := trip
  rw [whole] at imports last ⊢
  refine ⟨u :: a ++ x :: c, ⟨rfl, ?_, ?_, by simp; omega⟩, by simp; omega⟩
  · rwa [List.getLast?_append_of_ne_nil _ (List.cons_ne_nil x c)] at last ⊢
  · have front : (u :: a ++ [x]).IsChain g.Imports :=
      (List.isChain_split.mp (List.IsChain.left_of_append imports)).1
    exact List.isChain_split.mpr ⟨front, imports.right_of_append⟩

/-! ## The search -/

/-- A pending way leads from the start to its end. -/
def Leads (g : ImportGraph) (start : Bytes) (way : Bytes × List Bytes) : Prop :=
  (way.1 :: way.2).reverse.head? = some start ∧ (way.1 :: way.2).reverse.IsChain g.Imports

variable {pending : List (Bytes × List Bytes)} {before cycle : List Bytes}

theorem Leads.extend (leads : g.Leads start (u, before)) (edge : g.Imports u v) :
    g.Leads start (v, u :: before) := by
  obtain ⟨first, imports⟩ := leads
  refine ⟨?_, ?_⟩
  · rw [List.reverse_cons, List.head?_append, first]
    rfl
  · rw [List.reverse_cons]
    refine imports.append (.singleton v) ?_
    simpa using edge

theorem roundTrip_closeCycle? (leads : ∀ way ∈ pending, g.Leads start way)
    (found : g.closeCycle? start remaining pending = some cycle) : g.RoundTrip start cycle := by
  fun_induction closeCycle? g start remaining pending with
  | case1 => contradiction
  | case2 remaining pending u before here way back =>
    obtain rfl := Option.some.inj found
    have leads := leads _ (List.mem_of_find?_eq_some here)
    obtain ⟨first, imports⟩ := leads.extend (List.contains_iff_mem.mp back)
    exact ⟨first, by simp, imports, by simp [way]⟩
  | case3 remaining pending u before here way away ih =>
    refine ih (fun next mem => ?_) found
    rcases List.mem_append.mp mem with mem | mem
    · exact leads next mem
    · obtain ⟨v, edge, rfl⟩ := List.mem_map.mp mem
      exact (leads _ (List.mem_of_find?_eq_some here)).extend edge

/-- The pending ways are in the order of their lengths, and none is longer by more than one than a
way whose end remains. -/
structure Layered (remaining : List Bytes) (pending : List (Bytes × List Bytes)) : Prop where
  sorted : pending.Pairwise fun a b => a.2.length ≤ b.2.length
  close : ∀ a ∈ pending, a.1 ∈ remaining → ∀ b ∈ pending, b.2.length ≤ a.2.length + 1

/-- The way that is taken up is one of the shortest. -/
theorem Layered.le_of_find? (layered : Layered remaining pending)
    (found : pending.find? (fun way => remaining.contains way.1) = some (u, before))
    {way : Bytes × List Bytes} (mem : way ∈ pending) (remains : way.1 ∈ remaining) :
    before.length ≤ way.2.length := by
  obtain ⟨-, earlier, later, rfl, gone⟩ := List.find?_eq_some_iff_append.mp found
  rcases List.mem_append.mp mem with early | late
  · have := gone way early
    simp [remains] at this
  · rcases List.mem_cons.mp late with rfl | late
    · exact Nat.le_refl _
    · have sorted := (List.pairwise_append.mp layered.sorted).2.1
      exact List.rel_of_pairwise_cons sorted late

theorem Layered.extend (layered : Layered remaining pending)
    (found : pending.find? (fun way => remaining.contains way.1) = some (u, before))
    (targets : List Bytes) :
    Layered (remaining.erase u) (pending ++ targets.map fun v => (v, u :: before)) := by
  have remains : u ∈ remaining := List.contains_iff_mem.mp (by simpa using List.find?_some found)
  have next := layered.close _ (List.mem_of_find?_eq_some found) remains
  constructor
  · refine List.pairwise_append.mpr ⟨layered.sorted, ?_, fun a old b new => ?_⟩
    · exact List.pairwise_map.mpr (List.pairwise_of_forall fun _ _ => Nat.le_refl _)
    · obtain ⟨v, -, rfl⟩ := List.mem_map.mp new
      exact next a old
  · intro a mem left b mem'
    have size : before.length ≤ a.2.length := by
      rcases List.mem_append.mp mem with old | new
      · exact layered.le_of_find? found old (List.mem_of_mem_erase left)
      · obtain ⟨v, -, rfl⟩ := List.mem_map.mp new
        exact Nat.le_succ _
    rcases List.mem_append.mp mem' with old | new
    · exact Nat.le_trans (next b old) (Nat.succ_le_succ size)
    · obtain ⟨v, -, rfl⟩ := List.mem_map.mp new
      exact Nat.succ_le_succ size

/-- A way that comes past a document goes on from its last visit, unless the visit is the last of
all. -/
theorem exists_onward (visited : u ∈ path) (back : (path ++ [start]).IsChain g.Imports)
    (away : ¬ g.Imports u start) :
    ∃ v onward, g.Imports u v ∧ (v :: onward ++ [start]).IsChain g.Imports ∧
      u ∉ v :: onward ∧ v :: onward ⊆ path ∧ onward.length + 2 ≤ path.length := by
  obtain ⟨after, earlier, split, once⟩ := List.eq_append_cons_of_mem (List.mem_reverse.mpr visited)
  obtain rfl : path = earlier.reverse ++ u :: after.reverse := by
    simpa using congrArg List.reverse split
  rw [← List.mem_reverse] at once
  rw [List.append_assoc, List.cons_append] at back
  obtain ⟨-, back⟩ := List.isChain_split.mp back
  cases onwards : after.reverse with
  | nil =>
    rw [onwards] at back
    exact absurd back.rel away
  | cons v onward =>
    rw [onwards] at back once
    obtain ⟨edge, back⟩ := List.isChain_cons_cons.mp back
    exact ⟨v, onward, edge, back, once, fun x mem => by simp [List.mem_cons.mp mem], by simp⟩

/-- The search comes back to the start, and not later than by going on from the end of a pending way
through documents that remain. -/
theorem closeCycle?_le (layered : Layered remaining pending) {way : Bytes × List Bytes}
    (mem : way ∈ pending) (within : ∀ x ∈ way.1 :: rest, x ∈ remaining)
    (back : (way.1 :: rest ++ [start]).IsChain g.Imports) :
    ∃ cycle, g.closeCycle? start remaining pending = some cycle ∧
      cycle.length ≤ way.2.length + rest.length + 2 := by
  fun_induction closeCycle? g start remaining pending generalizing way rest with
  | case1 remaining pending absent =>
    have gone := List.find?_eq_none.mp absent way mem
    simp [within way.1 List.mem_cons_self] at gone
  | case2 remaining pending u before found taken =>
    have := layered.le_of_find? found mem (within way.1 List.mem_cons_self)
    exact ⟨_, rfl, by simp [taken]; omega⟩
  | case3 remaining pending u before found taken away =>
    rename_i ih
    have shortest := layered.le_of_find? found mem (within way.1 List.mem_cons_self)
    have left {x : Bytes} (mem : x ∈ way.1 :: rest) (other : x ≠ u) : x ∈ remaining.erase u :=
      (List.mem_erase_of_ne other).mpr (within x mem)
    by_cases visited : u ∈ way.1 :: rest
    · -- The document is taken up by a way that is as short, so that its own way on is as good.
      obtain ⟨v, onward, edge, onwards, once, part, size⟩ :=
        exists_onward visited back fun edge => away (List.contains_iff_mem.mpr edge)
      obtain ⟨cycle, closed, le⟩ := ih (layered.extend found _)
        (List.mem_append_right _ (List.mem_map_of_mem edge))
        (fun x mem => left (part mem) (ne_of_mem_of_not_mem mem once)) onwards
      simp only [taken, List.length_cons] at le size
      exact ⟨cycle, closed, by omega⟩
    · exact ih (layered.extend found _) (List.mem_append_left _ mem)
        (fun x mem => left mem (ne_of_mem_of_not_mem mem visited)) back

theorem shortestCycle?_le (component : ∀ v, v ∈ members ↔ g.SameCycle start v)
    (trip : g.RoundTrip start path) :
    ∃ cycle, g.shortestCycle? start members = some cycle ∧ cycle.length ≤ path.length := by
  have within {v : Bytes} (mem : v ∈ path) : v ∈ start :: members.erase start := by
    by_cases same : v = start
    · exact same ▸ List.mem_cons_self
    · have member := (component v).mpr (trip.sameCycle mem)
      exact .tail _ ((List.mem_erase_of_ne same).mpr member)
  obtain ⟨rest, rfl⟩ := trip.eq_append
  have layered : Layered (start :: members.erase start) [(start, [])] := ⟨by simp, by simp⟩
  obtain ⟨cycle, found, le⟩ := closeCycle?_le layered List.mem_cons_self
    (fun x mem => within (List.mem_append_left _ mem)) trip.imports
  exact ⟨cycle, found, by simpa using le⟩

theorem roundTrip_shortestCycle? (found : g.shortestCycle? start members = some cycle) :
    g.RoundTrip start cycle := by
  refine roundTrip_closeCycle? (fun way mem => ?_) found
  rw [List.mem_singleton.mp mem]
  exact ⟨rfl, .singleton start⟩

/-- A cycle is found for every document on one. -/
theorem shortestCycle?_isSome (distinct : g.Distinct) (cycle : g.Reaches u u) :
    (g.shortestCycle? u (g.members u)).isSome := by
  obtain ⟨path, trip⟩ := exists_roundTrip cycle
  obtain ⟨shortest, found, -⟩ := shortestCycle?_le (fun v => mem_members distinct) trip
  rw [found]
  rfl

/-- A document on two cycles, the longer one of which is imported first. The shorter one is imported
twice, and comes past a document that imports itself. -/
def crossing : ImportGraph :=
  [(.ofString "a", [⟨.ofString "b", ⟨7, 3⟩⟩, ⟨.ofString "d", ⟨19, 3⟩⟩, ⟨.ofString "d", ⟨31, 3⟩⟩]),
    (.ofString "b", [⟨.ofString "c", ⟨7, 3⟩⟩]),
    (.ofString "c", [⟨.ofString "b", ⟨7, 3⟩⟩, ⟨.ofString "a", ⟨19, 3⟩⟩]),
    (.ofString "d", [⟨.ofString "d", ⟨7, 3⟩⟩, ⟨.ofString "a", ⟨19, 3⟩⟩]),
    (.ofString "e", [⟨.ofString "a", ⟨7, 3⟩⟩])]

end ImportGraph

end AvroIdl
