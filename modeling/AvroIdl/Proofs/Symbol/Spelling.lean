import AvroIdl.Proofs.Refactor.Name
import AvroIdl.Proofs.Symbol.Table

/-!
# Full names of types

The full name of a type is its simple name within its namespace. Only a name that is written with a
leading dot differs: `Symbol.Spelled`. All types of all documents are spelled like this,
`Table.spells_ofTree` and `Table.spells_ofJsonText`.
-/

namespace AvroIdl

namespace Name

variable {space name : Bytes}

theorem isQualified_iff : isQualified name = true ↔ dot ∈ name := by
  rw [isQualified, List.contains_iff_mem]

theorem qualify_of_mem (h : dot ∈ name) (space : Bytes) : qualify space name = name := by
  rw [qualify, if_pos (by simp [isQualified_iff.mpr h])]

theorem qualify_of_not_mem (h : dot ∉ name) (some : space ≠ []) :
    qualify space name = space ++ dot :: name := by
  have plain : isQualified name = false := Bool.eq_false_iff.mpr fun q => h (isQualified_iff.mp q)
  rw [qualify, plain, Bool.or_false, if_neg (by simpa using some)]

/-- A name with a namespace of its own is what stands around its last dot. -/
theorem qualifier?_eq_some (h : qualifier? name = some space) :
    dot ∈ name ∧ name = space ++ dot :: simple name := by
  by_cases dotted : dot ∈ name
  · refine ⟨dotted, ?_⟩
    obtain ⟨p, q, rfl, last⟩ := Bytes.exists_last dotted
    rw [qualifier?, Bytes.lastIndexOf?_append last, Option.map_some, Option.some.injEq,
      List.take_left' rfl] at h
    rw [simple_append last, h]
  · rw [qualifier?, Bytes.lastIndexOf?_eq_none dotted] at h
    contradiction

theorem not_mem_of_qualifier? (h : qualifier? name = none) : dot ∉ name := by
  intro dotted
  obtain ⟨p, q, rfl, last⟩ := Bytes.exists_last dotted
  rw [qualifier?, Bytes.lastIndexOf?_append last] at h
  contradiction

/-- A name in a namespace, which is its own if it has one. -/
theorem qualify_simple (own : ∀ q, qualifier? name = some q → space = q) :
    qualify space name = qualify space (simple name) ∨
      space = [] ∧ qualify space name = dot :: simple name := by
  cases found : qualifier? name with
  | none =>
    rw [simple_of_not_mem (not_mem_of_qualifier? found)]
    exact .inl rfl
  | some q =>
    obtain rfl := own q found
    obtain ⟨dotted, whole⟩ := qualifier?_eq_some found
    rw [qualify_of_mem dotted]
    by_cases none : space = []
    · subst none
      exact .inr ⟨rfl, whole⟩
    · rw [qualify_of_not_mem (dot_not_mem_simple name) none]
      exact .inl whole

end Name

/-- The full name of a symbol is its simple name within its namespace, or the simple name with a
leading dot. -/
def Symbol.Spelled (s : Symbol) : Prop :=
  s.name = Name.qualify s.nameSpace s.simpleName ∨
    s.nameSpace = [] ∧ s.name = Name.dot :: s.simpleName

theorem Symbol.spelled_of_qualify {s : Symbol} (name : Bytes)
    (eq : s.name = Name.qualify s.nameSpace name)
    (own : ∀ q, Name.qualifier? name = some q → s.nameSpace = q) : s.Spelled := by
  rw [Spelled, simpleName, eq, Name.simple_qualify]
  exact Name.qualify_simple own

theorem Node.declaredNamespace_eq {n : Node} {enclosing q : Bytes}
    (h : Name.qualifier? n.nameText = some q) : n.declaredNamespace enclosing = q := by
  rw [declaredNamespace, h]

theorem Json.spelled_symbol? {uri space : Bytes} {generation : UInt64} {kind : SymbolKind} {v : Json}
    {s : Symbol} (h : symbol? uri generation space kind v = some s) : s.Spelled := by
  obtain ⟨name, made⟩ := makes_symbol? h
  refine Symbol.spelled_of_qualify name.text made.qualified fun q own => ?_
  rw [made.nameSpace, own]
  rfl

namespace Table

/-- All types of a table are spelled as they should. -/
def Spells (t : Table) : Prop := ∀ s ∈ t.types, s.Spelled

variable {t : Table}

theorem Spells.add (h : t.Spells) {s : Symbol} (spelled : s.isProtocol = false → s.Spelled) :
    (t.add s).Spells := by
  intro o mem
  rw [types, symbols_add, List.filter_append, List.mem_append] at mem
  rcases mem with mem | mem
  · exact h o mem
  · obtain ⟨new, type⟩ := List.mem_filter.mp mem
    obtain rfl := List.mem_singleton.mp new
    exact spelled (by simpa using type)

theorem Spells.addStatement (h : t.Spells) (n : Node) (enclosing : Bytes) :
    (t.addStatement n enclosing).Spells := by
  unfold Table.addStatement declare
  split_ifs
  · exact h
  · split
    next =>
      exact h.add fun _ => Symbol.spelled_of_qualify n.nameText rfl fun q own =>
        Node.declaredNamespace_eq own
    next => exact h

theorem Spells.addProtocol (h : t.Spells) (n : Node) : (t.addProtocol n).Spells := by
  have spaced (space : Bytes) :
      (if t.protocol?.isNone then { t with nameSpace := space } else t).Spells := by
    split_ifs <;> exact h
  unfold Table.addProtocol
  refine List.foldlRecOn _ _ ?_ fun t h c _ => h.addStatement c _
  cases n.name? with
  | none => exact spaced _
  | some name => exact (spaced _).add fun type => by simp [Symbol.isProtocol] at type

theorem spells_ofTree (serial : Nat) (uri : Bytes) (tree : Tree) : (ofTree serial uri tree).Spells := by
  have items (t : Table) (h : t.Spells) : (tree.root.childNodes.foldl addItem t).Spells := by
    refine List.foldlRecOn _ _ h fun t h c _ => ?_
    unfold addItem
    split_ifs
    · exact h.addProtocol c
    · exact h.addStatement c _
  exact items _ (by simp [Spells, types])

theorem spells_ofJsonText (serial : Nat) (uri text : Bytes) (generation : UInt64) :
    (ofJsonText serial uri text generation).Spells := by
  have declared (t : Table) (h : t.Spells) {symbols : List Symbol}
      (spelled : ∀ s ∈ symbols, s.Spelled) : (symbols.foldl add t).Spells :=
    List.foldlRecOn _ _ h fun t h s mem => h.add fun _ => spelled s mem
  have empty (space : Bytes) :
      ({ serial, uri, generation, nameSpace := space } : Table).Spells := by simp [Spells, types]
  have spelled (space : Bytes) (v : Json) :
      ∀ s ∈ v.symbols uri generation space, s.Spelled := Json.forall_symbols Json.spelled_symbol? space v
  unfold ofJsonText
  cases Json.read? text with
  | none => exact empty []
  | some root =>
    dsimp only
    cases root.get? "protocol" with
    | none => exact declared _ (empty []) (spelled [] root)
    | some name =>
      refine declared _ ((empty _).add fun type => by simp [Symbol.isProtocol] at type) fun s mem => ?_
      obtain ⟨v, -, mem⟩ := List.mem_flatMap.mp mem
      exact spelled _ v s mem

end Table

end AvroIdl
