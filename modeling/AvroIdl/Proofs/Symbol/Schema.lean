import AvroIdl.Proofs.Symbol.Identity
import AvroIdl.Proofs.Symbol.Spelling
import Mathlib.Logic.Relation

/-!
# The types of a schema

Where a value can stand for a schema is told apart from the index: `Json.Nests` leads from a schema
to those in it, each with the namespace that it inherits, and `Json.SchemaAt` are all those of a
document. The types of a JSON document are those that the objects among them declare, each once and
in the order of the text, which is that of visiting: `Table.types_ofJsonText`.
-/

namespace AvroIdl

namespace Json

/-- A value in the place of a schema, and the namespace around it. -/
structure Position where
  space : Bytes
  value : Json

/-- An object states its type by a word. -/
def HasType (o : Json) (type : Bytes) : Prop :=
  ∃ t, o.get? "type" = some t ∧ t.isObject = false ∧ t.isArray = false ∧ t.text = type

/-- An object declares a type of a kind by a name: a string that is not empty. -/
structure Names (o : Json) (kind : SymbolKind) (name : Bytes) : Prop where
  type : o.HasType kind.name
  declares : kind ≠ .protocol
  string : ∃ n, o.get? "name" = some n ∧ n.isString = true ∧ n.text = name
  filled : name ≠ []

/-- A simple name in a namespace, which can be missing. -/
def inNamespace (space name : Bytes) : Bytes :=
  if space = [] then name else space ++ Name.dot :: name

/-- The namespace and the full name of a type that an object declares by a name. A name with a dot
is the full name. Other names belong to the namespace that the object states, or else to the one
around it. -/
inductive Spells (space : Bytes) (o : Json) : Bytes → Bytes → Bytes → Prop where
  | dotted {q last : Bytes} (plain : Name.dot ∉ last) :
    Spells space o (q ++ Name.dot :: last) q (q ++ Name.dot :: last)
  | stated {name : Bytes} {n : Json} (plain : Name.dot ∉ name)
    (given : o.get? "namespace" = some n) : Spells space o name n.text (inNamespace n.text name)
  | inherited {name : Bytes} (plain : Name.dot ∉ name) (absent : o.get? "namespace" = none) :
    Spells space o name space (inNamespace space name)

/-- A schema stands in another: as a branch of a union, as what a type is made of, or as the type of
a field of a record or error that is declared. Only the last is in another namespace. -/
inductive Nests : Position → Position → Prop where
  | branch {space : Bytes} {piece : Piece} {items : List Json} {v : Json} (mem : v ∈ items) :
    Nests ⟨space, array piece items⟩ ⟨space, v⟩
  | type {space : Bytes} {o t : Json} (found : o.get? "type" = some t)
    (nested : t.isObject = true ∨ t.isArray = true) : Nests ⟨space, o⟩ ⟨space, t⟩
  | items {space : Bytes} {o v : Json} (type : o.HasType "array") (found : o.get? "items" = some v) :
    Nests ⟨space, o⟩ ⟨space, v⟩
  | values {space : Bytes} {o v : Json} (type : o.HasType "map") (found : o.get? "values" = some v) :
    Nests ⟨space, o⟩ ⟨space, v⟩
  | field {space name inner full : Bytes} {o fields f t : Json} {kind : SymbolKind}
    (names : o.Names kind name) (record : kind = .record ∨ kind = .error)
    (spells : o.Spells space name inner full) (found : o.get? "fields" = some fields)
    (mem : f ∈ fields.elements) (type : f.get? "type" = some t) : Nests ⟨space, o⟩ ⟨inner, t⟩

/-- The outermost schemas of a document: the types of a protocol, or the document itself. -/
inductive Outermost (root : Json) : Position → Prop where
  | schema (none : root.get? "protocol" = none) : Outermost root ⟨[], root⟩
  | type {name types v : Json} (protocol : root.get? "protocol" = some name)
    (found : root.get? "types" = some types) (mem : v ∈ types.elements) :
    Outermost root ⟨textOf (root.get? "namespace"), v⟩

/-- The places of schemas in a document. -/
def SchemaAt (root : Json) (p : Position) : Prop :=
  ∃ outermost, root.Outermost outermost ∧ Relation.ReflTransGen Nests outermost p

/-- A symbol of a document describes the type that an object declares. -/
structure Describes (uri : Bytes) (generation : UInt64) (s : Symbol) (p : Position) : Prop where
  named : ∃ name, p.value.Names s.kind name ∧ p.value.Spells p.space name s.nameSpace s.name
  span : s.span = ⟨p.value.start, p.value.raw.length⟩
  uri : s.uri = uri
  generation : s.generation = generation

/-! ## One object -/

variable {o t : Json} {space name : Bytes} {kind : SymbolKind}

theorem hasType_iff (found : o.get? "type" = some t) {type : Bytes} :
    o.HasType type ↔ t.isObject = false ∧ t.isArray = false ∧ t.text = type := by
  constructor
  · rintro ⟨t', found', known⟩
    obtain rfl := Option.some.inj (found.symm.trans found')
    exact known
  · exact fun known => ⟨t, found, known⟩

theorem name_injective {kind kind' : SymbolKind} (h : kind.name = kind'.name) : kind = kind' := by
  revert h
  cases kind <;> cases kind' <;> decide

theorem name_ne_array (kind : SymbolKind) : kind.name ≠ "array" := by
  cases kind <;> decide

theorem name_ne_map (kind : SymbolKind) : kind.name ≠ "map" := by
  cases kind <;> decide

theorem symbolKind?_eq_some_iff {type : Bytes} :
    symbolKind? type = some kind ↔ kind ≠ .protocol ∧ kind.name = type := by
  constructor
  · intro found
    have named := List.find?_some found
    have listed := List.mem_of_find?_eq_some found
    refine ⟨?_, of_decide_eq_true named⟩
    rintro rfl
    revert listed
    decide
  · rintro ⟨declares, rfl⟩
    revert declares
    cases kind <;> decide

theorem Names.unique {kind' : SymbolKind} {name' : Bytes} (h : o.Names kind name)
    (h' : o.Names kind' name') : kind = kind' ∧ name = name' := by
  obtain ⟨⟨t, found, known⟩, -, ⟨n, string, -, rfl⟩, -⟩ := h
  obtain ⟨type', -, ⟨n', string', -, rfl⟩, -⟩ := h'
  have other := (hasType_iff found).mp type'
  obtain rfl := Option.some.inj (string.symm.trans string')
  exact ⟨name_injective (known.2.2.symm.trans other.2.2), rfl⟩

theorem qualify_eq_inNamespace (plain : Name.dot ∉ name) (space : Bytes) :
    Name.qualify space name = inNamespace space name := by
  unfold inNamespace
  split_ifs with none
  · rw [none, Name.qualify]
    rfl
  · exact Name.qualify_of_not_mem plain none

theorem qualifier?_append {q last : Bytes} (plain : Name.dot ∉ last) :
    Name.qualifier? (q ++ Name.dot :: last) = some q := by
  rw [Name.qualifier?, Bytes.lastIndexOf?_append plain, Option.map_some, List.take_left' rfl]

theorem qualifier?_of_not_mem (plain : Name.dot ∉ name) : Name.qualifier? name = none := by
  rw [Name.qualifier?, Bytes.lastIndexOf?_eq_none plain]
  rfl

/-- What a type is called, in one equation for the namespace and one for the full name. -/
theorem spells_iff {inner full : Bytes} : o.Spells space name inner full ↔
    inner = (Name.qualifier? name).getD (((o.get? "namespace").map text).getD space) ∧
      full = Name.qualify inner name := by
  constructor
  · rintro (plain | ⟨plain, given⟩ | ⟨plain, absent⟩)
    · rw [qualifier?_append plain, Name.qualify_of_mem (by simp)]
      exact ⟨rfl, rfl⟩
    · rw [qualifier?_of_not_mem plain, given, qualify_eq_inNamespace plain]
      exact ⟨rfl, rfl⟩
    · rw [qualifier?_of_not_mem plain, absent, qualify_eq_inNamespace plain]
      exact ⟨rfl, rfl⟩
  · rintro ⟨rfl, rfl⟩
    by_cases dotted : Name.dot ∈ name
    · obtain ⟨q, last, rfl, plain⟩ := Bytes.exists_last dotted
      rw [qualifier?_append plain, Name.qualify_of_mem dotted]
      exact .dotted plain
    · rw [qualifier?_of_not_mem dotted, qualify_eq_inNamespace dotted]
      cases given : o.get? "namespace" with
      | some n => exact .stated dotted given
      | none => exact .inherited dotted given

/-! ## Schemas in schemas -/

/-- A type is declared at a place in another one, or there. -/
def Declared (outer p : Position) : Prop :=
  Relation.ReflTransGen Nests outer p ∧ ∃ kind name, p.value.Names kind name

theorem declared_iff {outer p : Position} : Declared outer p ↔
    (p = outer ∧ ∃ kind name, outer.value.Names kind name) ∨
      ∃ inner, Nests outer inner ∧ Declared inner p := by
  rw [Declared, Relation.ReflTransGen.cases_head_iff]
  constructor
  · rintro ⟨rfl | ⟨inner, nests, path⟩, named⟩
    · exact .inl ⟨rfl, named⟩
    · exact .inr ⟨inner, nests, path, named⟩
  · rintro (⟨rfl, named⟩ | ⟨inner, nests, path, named⟩)
    · exact ⟨.inl rfl, named⟩
    · exact ⟨.inr ⟨inner, nests, path⟩, named⟩

/-- Where no type is declared at a place itself, one is declared in the schemas that stand there. -/
theorem declared_iff_inner {outer p : Position} (unnamed : ∀ kind name, ¬ outer.value.Names kind name) :
    Declared outer p ↔ ∃ inner, Nests outer inner ∧ Declared inner p := by
  rw [declared_iff]
  simp [unnamed]

section Object

variable {p : Position}

theorem not_names_of_none (absent : o.get? "type" = none) (kind : SymbolKind) (name : Bytes) :
    ¬ o.Names kind name := by
  rintro ⟨⟨t, found, -⟩, -⟩
  rw [absent] at found
  contradiction

theorem declared_array {piece : Piece} {items : List Json} :
    Declared ⟨space, array piece items⟩ p ↔ ∃ v ∈ items, Declared ⟨space, v⟩ p := by
  rw [declared_iff_inner (not_names_of_none rfl)]
  constructor
  · rintro ⟨inner, nests, declared⟩
    cases nests with
    | branch mem => exact ⟨_, mem, declared⟩
    | type found => simp [get?] at found
    | items type found => simp [get?] at found
    | values type found => simp [get?] at found
    | field names record spells found => simp [get?] at found
  · rintro ⟨v, mem, declared⟩
    exact ⟨_, .branch mem, declared⟩

/-- A value without a type declares none. -/
theorem not_declared_of_none (absent : o.get? "type" = none) (single : o.isArray = false) :
    ¬ Declared ⟨space, o⟩ p := by
  rw [declared_iff_inner (not_names_of_none absent)]
  have untyped {type : Bytes} : ¬ o.HasType type := by
    rintro ⟨t, found, -⟩
    rw [absent] at found
    contradiction
  rintro ⟨inner, nests, -⟩
  cases nests with
  | branch => contradiction
  | type found => rw [absent] at found; contradiction
  | items type => exact untyped type
  | values type => exact untyped type
  | field names => exact untyped names.type

theorem declared_nested (found : o.get? "type" = some t)
    (nested : t.isObject = true ∨ t.isArray = true) :
    Declared ⟨space, o⟩ p ↔ Declared ⟨space, t⟩ p := by
  have untyped {type : Bytes} : ¬ o.HasType type := by
    rw [hasType_iff found]
    rintro ⟨object, array, -⟩
    simp [object, array] at nested
  rw [declared_iff_inner fun kind name names => untyped names.type]
  constructor
  · rintro ⟨inner, nests, declared⟩
    cases nests with
    | branch => simp [get?] at found
    | type found' =>
      obtain rfl := Option.some.inj (found.symm.trans found')
      exact declared
    | items type => exact absurd type untyped
    | values type => exact absurd type untyped
    | field names => exact absurd names.type untyped
  · exact fun declared => ⟨_, .type found nested, declared⟩

/-- What is declared at an object whose type is a word and in it. -/
theorem declared_word {type : Bytes} (word : o.HasType type) : Declared ⟨space, o⟩ p ↔
    (p = ⟨space, o⟩ ∧ ∃ kind name, o.Names kind name) ∨
    (type = "array" ∧ ∃ v, o.get? "items" = some v ∧ Declared ⟨space, v⟩ p) ∨
    (type = "map" ∧ ∃ v, o.get? "values" = some v ∧ Declared ⟨space, v⟩ p) ∨
    ∃ kind name inner full, o.Names kind name ∧ (kind = .record ∨ kind = .error) ∧
      o.Spells space name inner full ∧ ∃ fields, o.get? "fields" = some fields ∧
        ∃ f ∈ fields.elements, ∃ t, f.get? "type" = some t ∧ Declared ⟨inner, t⟩ p := by
  have same {type' : Bytes} (word' : o.HasType type') : type = type' := by
    obtain ⟨t, found, -, -, rfl⟩ := word
    exact ((hasType_iff found).mp word').2.2
  rw [declared_iff]
  constructor
  · rintro (here | ⟨inner, nests, declared⟩)
    · exact .inl here
    · cases nests with
      | branch =>
        obtain ⟨t, found, -⟩ := word
        simp [get?] at found
      | type found nested =>
        obtain ⟨object, array, -⟩ := (hasType_iff found).mp word
        simp [object, array] at nested
      | items word' found => exact .inr (.inl ⟨same word', _, found, declared⟩)
      | values word' found => exact .inr (.inr (.inl ⟨same word', _, found, declared⟩))
      | field names record spells found mem type =>
        exact .inr (.inr (.inr
          ⟨_, _, _, _, names, record, spells, _, found, _, mem, _, type, declared⟩))
  · rintro (here | ⟨rfl, v, found, declared⟩ | ⟨rfl, v, found, declared⟩ |
      ⟨kind, name, inner, full, names, record, spells, fields, found, f, mem, t, type, declared⟩)
    · exact .inl here
    · exact .inr ⟨_, .items word found, declared⟩
    · exact .inr ⟨_, .values word found, declared⟩
    · exact .inr ⟨_, .field names record spells found mem type, declared⟩

theorem not_names_of_other {type : Bytes} (word : o.HasType type)
    (other : ∀ kind : SymbolKind, kind ≠ .protocol → kind.name ≠ type) (kind : SymbolKind)
    (name : Bytes) : ¬ o.Names kind name := by
  rintro ⟨word', declares, -⟩
  obtain ⟨t, found, -, -, rfl⟩ := word
  exact other kind declares ((hasType_iff found).mp word').2.2.symm

theorem declared_items (word : o.HasType "array") :
    Declared ⟨space, o⟩ p ↔ ∃ v, o.get? "items" = some v ∧ Declared ⟨space, v⟩ p := by
  have unnamed := not_names_of_other word fun kind _ => name_ne_array kind
  have other : Bytes.ofString "array" ≠ "map" := by decide
  rw [declared_word word]
  simp [unnamed, other]

theorem declared_values (word : o.HasType "map") :
    Declared ⟨space, o⟩ p ↔ ∃ v, o.get? "values" = some v ∧ Declared ⟨space, v⟩ p := by
  have unnamed := not_names_of_other word fun kind _ => name_ne_map kind
  have other : Bytes.ofString "map" ≠ "array" := by decide
  rw [declared_word word]
  simp [unnamed, other]

/-- Words that stand for no kind of type, and types without a name, declare nothing. -/
theorem not_declared_of_word {type : Bytes} (word : o.HasType type) (noArray : type ≠ "array")
    (noMap : type ≠ "map") (unnamed : ∀ kind name, ¬ o.Names kind name) :
    ¬ Declared ⟨space, o⟩ p := by
  rw [declared_word word]
  simp [unnamed, noArray, noMap]

/-- An object that declares a type declares it, and what is in the types of its fields if it is a
record or an error. -/
theorem declared_names {inner full : Bytes} (names : o.Names kind name)
    (spells : o.Spells space name inner full) : Declared ⟨space, o⟩ p ↔
      p = ⟨space, o⟩ ∨ (kind = .record ∨ kind = .error) ∧
        ∃ fields, o.get? "fields" = some fields ∧
          ∃ f ∈ fields.elements, ∃ t, f.get? "type" = some t ∧ Declared ⟨inner, t⟩ p := by
  rw [declared_word names.type]
  constructor
  · rintro (⟨here, -⟩ | ⟨array, -⟩ | ⟨map, -⟩ | ⟨kind', name', inner', full', names', record, spells', h⟩)
    · exact .inl here
    · exact absurd array (name_ne_array kind)
    · exact absurd map (name_ne_map kind)
    · obtain ⟨rfl, rfl⟩ := names.unique names'
      obtain rfl : inner = inner' := (spells_iff.mp spells).1.trans (spells_iff.mp spells').1.symm
      exact .inr ⟨record, h⟩
  · rintro (here | ⟨record, h⟩)
    · exact .inl ⟨here, kind, name, names⟩
    · exact .inr (.inr (.inr ⟨kind, name, inner, full, names, record, spells, h⟩))

end Object

/-! ## The index -/

section Index

variable {uri : Bytes} {generation : UInt64} {s : Symbol} {ss : List Symbol} {P Q : Position → Prop}

/-- Symbols describe the types at some places, one by one. -/
def Lists (uri : Bytes) (generation : UInt64) (ss : List Symbol) (P : Position → Prop) : Prop :=
  ∃ declared, List.Forall₂ (Describes uri generation) ss declared ∧ ∀ p, p ∈ declared ↔ P p

theorem lists_nil (none : ∀ p, ¬ P p) : Lists uri generation [] P :=
  ⟨[], .nil, by simpa using none⟩

theorem Lists.congr (h : Lists uri generation ss P) (same : ∀ p, Q p ↔ P p) :
    Lists uri generation ss Q := by
  obtain ⟨declared, described, listed⟩ := h
  exact ⟨declared, described, fun p => (listed p).trans (same p).symm⟩

theorem Lists.cons {p : Position} (h : Lists uri generation ss P)
    (described : Describes uri generation s p) :
    Lists uri generation (s :: ss) fun q => q = p ∨ P q := by
  obtain ⟨declared, others, listed⟩ := h
  exact ⟨p :: declared, .cons described others, fun q => by rw [List.mem_cons, listed]⟩

theorem lists_flatMap {f : Json → List Symbol} {P : Json → Position → Prop} {vs : List Json}
    (each : ∀ v ∈ vs, Lists uri generation (f v) (P v)) :
    Lists uri generation (vs.flatMap f) fun p => ∃ v ∈ vs, P v p := by
  induction vs with
  | nil => exact lists_nil (by simp)
  | cons v rest ih =>
    obtain ⟨first, described, listed⟩ := each v List.mem_cons_self
    obtain ⟨others, described', listed'⟩ := ih fun w mem => each w (.tail _ mem)
    refine ⟨first ++ others, List.rel_append described described', fun p => ?_⟩
    simp only [List.mem_append, listed, listed', List.mem_cons, exists_eq_or_imp]

theorem lists_elim {f : Json → List Symbol} {P : Json → Position → Prop} {found : Option Json}
    (each : ∀ v, found = some v → Lists uri generation (f v) (P v)) :
    Lists uri generation (found.elim [] f) fun p => ∃ v, found = some v ∧ P v p := by
  cases found with
  | none => exact lists_nil (by simp)
  | some v => exact (each v rfl).congr fun p => by simp

/-- The symbol of an object describes the type that it declares. -/
theorem describes_symbol? (type : o.HasType kind.name) (declares : kind ≠ .protocol)
    (made : symbol? uri generation space kind o = some s) :
    s.kind = kind ∧ Describes uri generation s ⟨space, o⟩ := by
  obtain ⟨n, made⟩ := makes_symbol? made
  have names : o.Names kind n.text := ⟨type, declares, ⟨n, made.found, made.string, rfl⟩, made.filled⟩
  refine ⟨made.kind, ⟨n.text, made.kind.symm ▸ names, ?_⟩, made.span, made.uri, made.generation⟩
  exact spells_iff.mpr ⟨made.nameSpace, made.qualified⟩

/-- An object without a symbol declares no type. -/
theorem not_names_of_symbol? (none : symbol? uri generation space kind o = none)
    (kind' : SymbolKind) (name : Bytes) : ¬ o.Names kind' name := by
  rintro ⟨-, -, ⟨n, found, string, rfl⟩, filled⟩
  simp [symbol?, found, string, filled] at none

theorem lists_symbols (uri : Bytes) (generation : UInt64) (space : Bytes) (v : Json) :
    Lists uri generation (symbols uri generation space v) (Declared ⟨space, v⟩) := by
  induction size : sizeOf v using Nat.strongRecOn generalizing v space with
  | ind k ih =>
    subst size
    have within (key : Bytes) :
        Lists uri generation ((v.get? key).elim [] (symbols uri generation space)) fun p =>
          ∃ w, v.get? key = some w ∧ Declared ⟨space, w⟩ p :=
      lists_elim fun w found => ih _ (sizeOf_get? found) space w rfl
    cases v with
    | array piece items =>
      have each (v : Json) (mem : v ∈ items) :
          Lists uri generation (symbols uri generation space v) (Declared ⟨space, v⟩) := by
        have := List.sizeOf_lt_of_mem mem
        exact ih _ (by simp only [array.sizeOf_spec]; omega) space v rfl
      rw [symbols_array]
      exact (lists_flatMap each).congr fun p => declared_array
    | object piece members =>
      rw [symbols_object]
      cases found : (object piece members).get? "type" with
      | none => exact lists_nil fun p => not_declared_of_none found rfl
      | some type =>
        dsimp only [Option.elim_some]
        split_ifs with nested isArray isMap
        · rw [Bool.or_eq_true] at nested
          exact (ih _ (sizeOf_get? found) space type rfl).congr fun p => declared_nested found nested
        all_goals
          rw [Bool.or_eq_true, not_or, Bool.not_eq_true, Bool.not_eq_true] at nested
          have word := (hasType_iff found).mpr ⟨nested.1, nested.2, rfl⟩
        · rw [isArray] at word
          exact (within "items").congr fun p => declared_items word
        · rw [isMap] at word
          exact (within "values").congr fun p => declared_values word
        · -- Of the words that are left only those of kinds declare a type.
          have nothing (unnamed : ∀ kind name, ¬ (object piece members).Names kind name)
              (p : Position) : ¬ Declared ⟨space, object piece members⟩ p :=
            not_declared_of_word word isArray isMap unnamed
          cases known : symbolKind? type.text with
          | none =>
            refine lists_nil (nothing (not_names_of_other word fun kind declares same => ?_))
            rw [symbolKind?_eq_some_iff.mpr ⟨declares, same⟩] at known
            contradiction
          | some kind =>
            obtain ⟨declares, same⟩ := symbolKind?_eq_some_iff.mp known
            dsimp only [Option.elim_some]
            cases made : symbol? uri generation space kind (object piece members) with
            | none => exact lists_nil (nothing (not_names_of_symbol? made))
            | some s =>
              obtain ⟨rfl, described⟩ := describes_symbol? (same ▸ word) declares made
              obtain ⟨name, names, spells⟩ := described.named
              refine (Lists.cons ?_ described).congr fun p => declared_names names spells
              by_cases record : s.kind = .record ∨ s.kind = .error
              · rw [if_pos (by simpa using record)]
                refine (lists_elim fun fields hf => lists_flatMap fun f mem =>
                  lists_elim fun t hg => ih (sizeOf t) ?_ s.nameSpace t rfl).congr fun p => ?_
                · have := sizeOf_get? hf
                  have := sizeOf_elements mem
                  have := sizeOf_get? hg
                  omega
                · simp [record]
              · rw [if_neg (by simpa using record)]
                exact lists_nil fun p => by simp [record]
    | word | number | string =>
      simp only [symbols]
      exact lists_nil fun p => not_declared_of_none rfl rfl

theorem Lists.filter_types (h : Lists uri generation ss P) :
    ss.filter (fun s => !s.isProtocol) = ss := by
  obtain ⟨declared, described, -⟩ := h
  refine List.filter_eq_self.mpr fun s mem => ?_
  obtain ⟨p, -, here⟩ := exists_of_forall₂ described mem
  obtain ⟨name, names, -⟩ := here.named
  simpa [Symbol.isProtocol] using names.declares

/-- The symbols of types start where the objects do that declare them. -/
theorem starts_of_describes {declared : List Position}
    (h : List.Forall₂ (Describes uri generation) ss declared) :
    ss.map (fun s => s.span.start) = declared.map fun p => p.value.start := by
  induction h with
  | nil => rfl
  | cons here _ ih => rw [List.map_cons, List.map_cons, ih, here.span]

theorem schemaAt_iff_of_none {root : Json} {p : Position} (none : root.get? "protocol" = none) :
    (root.SchemaAt p ∧ ∃ kind name, p.value.Names kind name) ↔ Declared ⟨[], root⟩ p := by
  constructor
  · rintro ⟨⟨outermost, h, path⟩, named⟩
    cases h with
    | schema => exact ⟨path, named⟩
    | type protocol => rw [none] at protocol; contradiction
  · rintro ⟨path, named⟩
    exact ⟨⟨_, .schema none, path⟩, named⟩

theorem schemaAt_iff_of_protocol {root protocol : Json} {p : Position}
    (found : root.get? "protocol" = some protocol) :
    (root.SchemaAt p ∧ ∃ kind name, p.value.Names kind name) ↔
      ∃ v ∈ ((root.get? "types").map elements).getD [],
        Declared ⟨textOf (root.get? "namespace"), v⟩ p := by
  constructor
  · rintro ⟨⟨outermost, h, path⟩, named⟩
    cases h with
    | schema none => rw [found] at none; contradiction
    | type protocol types mem =>
      rw [types]
      exact ⟨_, mem, path, named⟩
  · rintro ⟨v, mem, path, named⟩
    cases types : root.get? "types" with
    | none => rw [types] at mem; contradiction
    | some vs =>
      rw [types] at mem
      exact ⟨⟨_, .type found types mem, path⟩, named⟩

end Index

end Json

namespace Table

variable (serial : Nat) (uri : Bytes) {text : Bytes} (generation : UInt64) {root : Json}

theorem lists_types (read : Json.read? text = some root) :
    Json.Lists uri generation (ofJsonText serial uri text generation).types fun p =>
      root.SchemaAt p ∧ ∃ kind name, p.value.Names kind name := by
  unfold ofJsonText types
  rw [read]
  dsimp only
  cases found : root.get? "protocol" with
  | none =>
    have listed := Json.lists_symbols uri generation [] root
    dsimp only
    rw [symbols_foldl_add, List.nil_append, listed.filter_types]
    exact listed.congr fun p => Json.schemaAt_iff_of_none found
  | some protocol =>
    have listed := Json.lists_flatMap fun v (_ : v ∈ ((root.get? "types").map Json.elements).getD []) =>
      Json.lists_symbols uri generation (Json.textOf (root.get? "namespace")) v
    dsimp only
    rw [symbols_foldl_add, symbols_add, List.nil_append, List.singleton_append,
      List.filter_cons_of_neg (by simp [Symbol.isProtocol]), listed.filter_types]
    exact listed.congr fun p => Json.schemaAt_iff_of_protocol found

/-- The types of a JSON document are those that the objects in the places of schemas declare, each
once and in the order of the text. -/
theorem types_ofJsonText (read : Json.read? text = some root) :
    ∃ declared : List Json.Position,
      (∀ p, p ∈ declared ↔ root.SchemaAt p ∧ ∃ kind name, p.value.Names kind name) ∧
      declared.Pairwise (fun p q => p.value.start < q.value.start) ∧
      List.Forall₂ (Json.Describes uri generation)
        (ofJsonText serial uri text generation).types declared := by
  obtain ⟨declared, described, listed⟩ := lists_types serial uri generation read
  refine ⟨declared, listed, ?_, described⟩
  have ascending : (ofJsonText serial uri text generation).types.Pairwise fun a b =>
      a.span.start < b.span.start :=
    (ascending_ofJsonText serial uri text generation).sublist List.filter_sublist
  have starts := Json.starts_of_describes described
  rw [← List.pairwise_map (f := fun s : Symbol => s.span.start) (R := (· < ·)), starts,
    List.pairwise_map] at ascending
  exact ascending

/-- A protocol with an enum that inherits its namespace, and with a record of another one. The fixed
type in a field of the record inherits that of the record. -/
def nestedTypes : Bytes :=
  Bytes.join ["\x7b\"protocol\": \"P\", \"namespace\": \"x\", \"types\": [",
    "\x7b\"type\": \"record\", \"name\": \"y.R\", \"fields\": [\x7b\"type\": [\"null\", ",
    "\x7b\"type\": \"array\", \"items\": \x7b\"type\": \"fixed\", \"name\": \"F\"\x7d\x7d]\x7d]\x7d, ",
    "\x7b\"type\": \x7b\"type\": \"enum\", \"name\": \"E\"\x7d\x7d]\x7d"]

theorem types_ofJsonText_nested :
    (ofJsonText 1 "/a.avpr" nestedTypes 1).types.map (·.name) =
        [Bytes.ofString "y.R", Bytes.ofString "y.F", Bytes.ofString "x.E"] ∧
      ∃ root, Json.read? nestedTypes = some root ∧
        ∃ declared : List Json.Position,
          (∀ p, p ∈ declared ↔ root.SchemaAt p ∧ ∃ kind name, p.value.Names kind name) ∧
          declared.Pairwise (fun p q => p.value.start < q.value.start) ∧
          List.Forall₂ (Json.Describes "/a.avpr" 1) (ofJsonText 1 "/a.avpr" nestedTypes 1).types
            declared := by
  have valid : (Json.read? nestedTypes).isSome = true := by decide +kernel
  obtain ⟨root, read⟩ := Option.isSome_iff_exists.mp valid
  exact ⟨by decide +kernel, root, read, types_ofJsonText 1 "/a.avpr" 1 read⟩

end Table

end AvroIdl
