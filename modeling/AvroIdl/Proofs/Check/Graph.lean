import AvroIdl.Check.Graph
import AvroIdl.Proofs.Association
import AvroIdl.Proofs.Gather

/-!
# Import cycles

The documents on a cycle with a document are those that import it and are imported by it, directly
or through others: `ImportGraph.mem_members`. Of some documents one is to report: the least reporter,
or the least of all if none of them is a reporter, `IsReporter`.
-/

namespace AvroIdl

namespace ImportGraph

variable {g : ImportGraph} {u v : Bytes}

/-- A statement of one document imports another. -/
def Imports (g : ImportGraph) (u v : Bytes) : Prop := v ∈ g.targets u

/-- A document imports another, directly or through others. -/
def Reaches (g : ImportGraph) : Bytes → Bytes → Prop := Relation.TransGen g.Imports

/-- Two documents lie on one cycle: each imports the other, directly or through others. -/
def SameCycle (g : ImportGraph) (u v : Bytes) : Prop := g.Reaches u v ∧ g.Reaches v u

theorem SameCycle.symm (h : g.SameCycle u v) : g.SameCycle v u := ⟨h.2, h.1⟩

theorem SameCycle.trans {w : Bytes} (h : g.SameCycle u v) (h' : g.SameCycle v w) :
    g.SameCycle u w :=
  ⟨h.1.trans h'.1, h'.2.trans h.2⟩

/-- Two documents on one cycle are on it with the same documents. -/
theorem SameCycle.eq (h : g.SameCycle u v) : g.SameCycle u = g.SameCycle v := by
  funext w
  exact propext ⟨h.symm.trans, h.trans⟩

/-- Each document stands in a graph once. -/
abbrev Distinct (g : ImportGraph) : Prop := (g.map Prod.fst).Nodup

theorem imports_iff (distinct : g.Distinct) :
    g.Imports u v ↔ ∃ edges, (u, edges) ∈ g ∧ ∃ e ∈ edges, e.target = v := by
  rw [Imports, targets, List.mem_map, edges]
  constructor
  · rintro ⟨e, mem, rfl⟩
    cases found : g.lookup u with
    | none => rw [found] at mem; contradiction
    | some edges =>
      rw [found] at mem
      exact ⟨edges, mem_of_lookup found, e, mem, rfl⟩
  · rintro ⟨edges, here, e, mem, rfl⟩
    rw [(lookup_eq_some_iff_mem distinct).mpr here]
    exact ⟨e, mem, rfl⟩

theorem mem_sources (distinct : g.Distinct) : u ∈ g.sources v ↔ g.Imports u v := by
  rw [imports_iff distinct]
  simp [sources]

theorem mem_descendants (distinct : g.Distinct) : v ∈ g.descendants u ↔ g.Reaches u v := by
  apply mem_gather_next
  intro a b mem
  obtain ⟨edges, here, e, edge, rfl⟩ := (imports_iff distinct).mp mem
  rw [List.mem_eraseDups, List.mem_flatMap]
  exact ⟨(a, edges), here, List.mem_map.mpr ⟨e, edge, rfl⟩⟩

theorem mem_ancestors (distinct : g.Distinct) : v ∈ g.ancestors u ↔ g.Reaches v u := by
  have back : (fun a b => b ∈ g.sources a) = Function.swap g.Imports := by
    funext a b
    exact propext (mem_sources distinct)
  rw [Reaches, ← Relation.transGen_swap, ← back]
  apply mem_gather_next
  intro a b mem
  obtain ⟨edges, here, -⟩ := (imports_iff distinct).mp ((mem_sources distinct).mp mem)
  rw [List.mem_eraseDups]
  exact List.mem_map.mpr ⟨(b, edges), here, rfl⟩

theorem mem_members (distinct : g.Distinct) : v ∈ g.members u ↔ g.SameCycle u v := by
  rw [members, List.mem_filter, List.contains_iff_mem, mem_descendants distinct,
    mem_ancestors distinct]
  rfl

end ImportGraph

/-! ## Reporters -/

/-- The document that reports for some documents: the least one among the reporters, or the least of
all if none of them is a reporter. -/
structure IsReporter (members : Bytes → Prop) (reporters : List Bytes) (r : Bytes) : Prop where
  member : members r
  among : ∀ v, members v → v ∈ reporters → r ∈ reporters ∧ r ≤ v
  least : (∀ v, members v → v ∉ reporters) → ∀ v, members v → r ≤ v

theorem IsReporter.unique {members : Bytes → Prop} {reporters : List Bytes} {r r' : Bytes}
    (h : IsReporter members reporters r) (h' : IsReporter members reporters r') : r = r' := by
  by_cases some : ∃ v, members v ∧ v ∈ reporters
  · obtain ⟨v, member, reports⟩ := some
    have one := (h.among v member reports).1
    have other := (h'.among v member reports).1
    exact List.le_antisymm (h.among r' h'.member other).2 (h'.among r h.member one).2
  · have none : ∀ v, members v → v ∉ reporters := fun v member reports => some ⟨v, member, reports⟩
    exact List.le_antisymm (h.least none r' h'.member) (h'.least none r h.member)

theorem foldl_least (names : List Bytes) (a : Bytes) :
    let m := names.foldl (fun m b => if b.before m then b else m) a
    m ∈ a :: names ∧ ∀ v ∈ a :: names, m ≤ v := by
  induction names generalizing a with
  | nil => simp
  | cons b names ih =>
    rw [List.foldl_cons]
    by_cases less : b < a
    · obtain ⟨mem, le⟩ := ih b
      simp only [Bytes.before, less, decide_true, if_true]
      refine ⟨.tail _ mem, fun v here => ?_⟩
      rcases List.mem_cons.mp here with rfl | here
      · exact List.le_trans (le b List.mem_cons_self) (List.le_of_lt less)
      · exact le v here
    · obtain ⟨mem, le⟩ := ih a
      have least := le a List.mem_cons_self
      simp only [Bytes.before, less, decide_false, Bool.false_eq_true, if_false]
      simp only [List.mem_cons, forall_eq_or_imp] at mem le ⊢
      exact ⟨mem.imp_right .inr, least, List.le_trans least (List.not_lt.mp less), le.2⟩

theorem least?_eq_some {names : List Bytes} {m : Bytes} (h : least? names = some m) :
    m ∈ names ∧ ∀ v ∈ names, m ≤ v := by
  cases names with
  | nil => contradiction
  | cons a names =>
    obtain rfl := Option.some.inj h
    exact foldl_least names a

theorem least?_isSome {names : List Bytes} {v : Bytes} (mem : v ∈ names) :
    ∃ m, least? names = some m := by
  cases names with
  | nil => contradiction
  | cons a rest => exact ⟨_, rfl⟩

theorem isReporter_reporterOf {members reporters : List Bytes} (filled : members ≠ [])
    (named : ∀ v ∈ members, v ≠ []) :
    IsReporter (· ∈ members) reporters (reporterOf members reporters) := by
  obtain ⟨m, least⟩ := least?_isSome (List.head_mem filled)
  obtain ⟨member, le⟩ := least?_eq_some least
  unfold reporterOf
  cases among : least? (members.filter reporters.contains) with
  | none =>
    rw [least]
    have none : ∀ v ∈ members, v ∉ reporters := by
      intro v member reports
      obtain ⟨r, found⟩ := least?_isSome
        (List.mem_filter.mpr ⟨member, List.contains_iff_mem.mpr reports⟩)
      rw [among] at found
      contradiction
    exact ⟨member, fun v member reports => absurd reports (none v member), fun _ => le⟩
  | some r =>
    obtain ⟨mem, le⟩ := least?_eq_some among
    obtain ⟨member, reports⟩ := List.mem_filter.mp mem
    have reports := List.contains_iff_mem.mp reports
    have full : r.isEmpty = false := by simpa using named r member
    simp only [full, Bool.false_eq_true, if_false]
    refine ⟨member, fun v other also => ⟨reports, le v ?_⟩, fun none => ?_⟩
    · exact List.mem_filter.mpr ⟨other, List.contains_iff_mem.mpr also⟩
    · exact absurd reports (none r member)

/-- Of the documents on a cycle with a document, the one that is to report is found. -/
theorem ImportGraph.isReporter_members (g : ImportGraph) (distinct : g.Distinct)
    (named : [] ∉ g.map Prod.fst) (reporters : List Bytes) {u : Bytes} (cycle : g.Reaches u u) :
    IsReporter (g.SameCycle u) reporters (reporterOf (g.members u) reporters) := by
  have members : (· ∈ g.members u) = g.SameCycle u := by
    funext v
    exact propext (mem_members distinct)
  rw [← members]
  apply isReporter_reporterOf
  · exact List.ne_nil_of_mem ((mem_members distinct).mpr ⟨cycle, cycle⟩)
  · intro v member
    -- A document on a cycle imports another, so that it stands in the graph.
    obtain ⟨w, edge, -⟩ := Relation.TransGen.head'_iff.mp ((mem_members distinct).mp member).2
    obtain ⟨edges, here, -⟩ := (imports_iff distinct).mp edge
    rintro rfl
    exact named (List.mem_map.mpr ⟨_, here, rfl⟩)

end AvroIdl
