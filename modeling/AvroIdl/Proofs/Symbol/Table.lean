import AvroIdl.Document
import Mathlib.Data.List.Basic

/-!
# What a table finds

A table finds by name what it declares, and nothing else: `Table.Sound`. Every step of indexing keeps
this, `Table.Extends`, and so it holds of the table of every document, `Table.of_ofTree` and
`Table.of_ofJsonText`.
-/

namespace AvroIdl

namespace NameIndex

theorem lookup_map (entries : List (Bytes × List Symbol)) (f : Bytes → List Symbol → List Symbol)
    (name : Bytes) :
    (entries.map fun e => (e.1, f e.1 e.2)).lookup name = (entries.lookup name).map (f name) := by
  induction entries with
  | nil => rfl
  | cons e rest ih =>
    rw [List.map_cons, List.lookup_cons, List.lookup_cons, ih]
    cases same : name == e.1 with
    | true => rw [beq_iff_eq.mp same]; rfl
    | false => rfl

/-- A symbol is found after those with the same name, and makes no difference to other names. -/
theorem get_insert (i : NameIndex) (name other : Bytes) (s : Symbol) :
    (i.insert name s).get other = i.get other ++ if other = name then [s] else [] := by
  unfold insert get
  by_cases known : i.entries.any (·.1 = name) = true
  · have changed : (i.entries.map fun e => if e.1 = name then (e.1, e.2 ++ [s]) else e) =
        i.entries.map fun e => (e.1, if e.1 = name then e.2 ++ [s] else e.2) :=
      List.map_congr_left fun e _ => by split_ifs <;> rfl
    have found := lookup_map i.entries (fun n found => if n = name then found ++ [s] else found) other
    simp only [known, if_true, changed, found]
    cases at_other : i.entries.lookup other with
    | some found => split_ifs <;> simp
    | none =>
      -- The name is known, so that it is another one that is not found.
      have ne : other ≠ name := by
        rintro rfl
        rw [List.lookup_eq_none_iff] at at_other
        obtain ⟨e, mem, eq⟩ := List.any_eq_true.mp known
        have := at_other e mem
        simp_all
      simp [ne]
  · have new : i.entries.lookup name = none := by
      rw [List.lookup_eq_none_iff]
      intro e mem
      have other := List.any_eq_false.mp (Bool.eq_false_iff.mpr known) e mem
      rw [decide_eq_true_eq] at other
      exact bne_iff_ne.mpr (Ne.symm other)
    simp only [known, Bool.false_eq_true, if_false, List.lookup_append]
    by_cases same : other = name
    · subst same
      simp [new]
    · have ne : (other == name) = false := by simpa using same
      simp [List.lookup_cons, ne, same]

end NameIndex

namespace Table

/-- A table finds what it declares, and all of it comes from one version of one document. -/
structure Sound (t : Table) : Prop where
  byName : ∀ name, t.lookup name = t.types.filter (·.name = name)
  bySimple : ∀ name, t.lookupSimple name = t.types.filter (·.simpleName = name)
  own : ∀ s ∈ t.symbols, s.uri = t.uri ∧ s.generation = t.generation

/-- What indexing does to a table: it stays that of the same version of the same document, and what
it declares is found. -/
structure Extends (t t' : Table) : Prop where
  serial : t'.serial = t.serial
  uri : t'.uri = t.uri
  generation : t'.generation = t.generation
  tree : t'.tree = t.tree
  sound : t.Sound → t'.Sound

variable {t t' t'' : Table}

theorem Extends.refl (t : Table) : t.Extends t := ⟨rfl, rfl, rfl, rfl, id⟩

theorem Extends.trans (h : t.Extends t') (h' : t'.Extends t'') : t.Extends t'' :=
  ⟨h'.serial.trans h.serial, h'.uri.trans h.uri, h'.generation.trans h.generation,
    h'.tree.trans h.tree, h'.sound ∘ h.sound⟩

theorem extends_foldl {α : Type} {f : Table → α → Table} (as : List α)
    (step : ∀ (t : Table), ∀ a ∈ as, t.Extends (f t a)) (t : Table) : t.Extends (as.foldl f t) := by
  induction as generalizing t with
  | nil => exact .refl t
  | cons a rest ih =>
    exact (step t a List.mem_cons_self).trans (ih (fun t b mem => step t b (.tail _ mem)) _)

theorem symbols_add (t : Table) (s : Symbol) : (t.add s).symbols = t.symbols ++ [s] := by
  unfold add
  split_ifs <;> rfl

/-- A symbol of the document is found once it is added. -/
theorem extends_add {s : Symbol} (uri : s.uri = t.uri) (generation : s.generation = t.generation) :
    t.Extends (t.add s) := by
  unfold add
  by_cases protocol : s.isProtocol = true
  · rw [if_pos protocol]
    refine ⟨rfl, rfl, rfl, rfl, fun h => ?_⟩
    have types : ({ t with symbols := t.symbols ++ [s] } : Table).types = t.types := by
      simp [Table.types, protocol]
    refine ⟨fun name => ?_, fun name => ?_, ?_⟩
    · rw [types]
      exact h.byName name
    · rw [types]
      exact h.bySimple name
    · simpa [or_imp, forall_and, uri, generation] using h.own
  · rw [if_neg protocol]
    refine ⟨rfl, rfl, rfl, rfl, fun h => ?_⟩
    refine ⟨fun name => ?_, fun name => ?_, ?_⟩
    · have found := h.byName name
      simp only [lookup, types] at found ⊢
      rw [NameIndex.get_insert, found]
      by_cases same : name = s.name <;> simp [protocol, same, eq_comm]
    · have found := h.bySimple name
      simp only [lookupSimple, types] at found ⊢
      rw [NameIndex.get_insert, found]
      by_cases same : name = s.simpleName <;> simp [protocol, same, eq_comm]
    · simpa [or_imp, forall_and, uri, generation] using h.own

theorem extends_declare (t : Table) (n : Node) (enclosing : Bytes) :
    t.Extends (t.declare n enclosing) := by
  unfold declare
  split
  · exact extends_add rfl rfl
  · exact .refl t

theorem extends_addStatement (t : Table) (n : Node) (enclosing : Bytes) :
    t.Extends (t.addStatement n enclosing) := by
  unfold addStatement
  split_ifs
  · exact ⟨rfl, rfl, rfl, rfl, fun h => ⟨h.byName, h.bySimple, h.own⟩⟩
  · exact t.extends_declare n enclosing

theorem extends_addProtocol (t : Table) (n : Node) : t.Extends (t.addProtocol n) := by
  have spaced (space : Bytes) :
      t.Extends (if t.protocol?.isNone then { t with nameSpace := space } else t) := by
    split_ifs
    · exact ⟨rfl, rfl, rfl, rfl, fun h => ⟨h.byName, h.bySimple, h.own⟩⟩
    · exact .refl t
  unfold addProtocol
  refine (spaced (n.annotatedNamespace?.getD [])).trans (.trans ?_
    (extends_foldl _ (fun t c _ => t.extends_addStatement c _) _))
  cases n.name? with
  | some name => exact extends_add rfl rfl
  | none => exact .refl _

theorem extends_addItem (t : Table) (n : Node) : t.Extends (t.addItem n) := by
  unfold addItem
  split_ifs
  · exact t.extends_addProtocol n
  · exact t.extends_addStatement n _

/-- What is known of the table of a version of a document. -/
structure Of (serial : Nat) (uri : Bytes) (generation : UInt64) (tree : Option Tree) (t : Table) :
    Prop where
  serial : t.serial = serial
  uri : t.uri = uri
  generation : t.generation = generation
  tree : t.tree = tree
  sound : t.Sound

variable {serial : Nat} {uri : Bytes} {generation : UInt64} {tree : Option Tree}

theorem Extends.of (h : t.Extends t') (ht : t.Of serial uri generation tree) :
    t'.Of serial uri generation tree :=
  ⟨h.serial.trans ht.serial, h.uri.trans ht.uri, h.generation.trans ht.generation,
    h.tree.trans ht.tree, h.sound ht.sound⟩

/-- Problems and references make no difference to what is declared. -/
theorem Of.finish (h : t.Of serial uri generation tree) (references : List Reference)
    (diagnostics : List Diagnostic) :
    ({ t with references, diagnostics } : Table).Of serial uri generation tree :=
  ⟨h.serial, h.uri, h.generation, h.tree, h.sound.byName, h.sound.bySimple, h.sound.own⟩

/-- A table that declares nothing finds nothing. -/
theorem of_empty (serial : Nat) (uri : Bytes) (generation : UInt64) (nameSpace : Bytes)
    (tree : Option Tree) :
    ({ serial, uri, generation, nameSpace, tree } : Table).Of serial uri generation tree :=
  ⟨rfl, rfl, rfl, rfl, fun _ => rfl, fun _ => rfl, nofun⟩

theorem of_ofTree (serial : Nat) (uri : Bytes) (tree : Tree) :
    (ofTree serial uri tree).Of serial uri tree.generation (some tree) := by
  have indexed := (extends_foldl tree.root.childNodes (fun t n _ => t.extends_addItem n) _).of
    (of_empty serial uri tree.generation
      (((tree.root.childrenOf .namespaceDecl).findSome? fun n =>
        n.name?.map fun l => identText l.text).getD []) (some tree))
  exact indexed.finish _ _

end Table

namespace Json

/-- What a symbol is made of that a value declares by a name. -/
structure Makes (uri : Bytes) (generation : UInt64) (space : Bytes) (kind : SymbolKind) (v name : Json)
    (s : Symbol) : Prop where
  found : v.get? "name" = some name
  string : name.isString = true
  filled : name.text ≠ []
  nameSpace : s.nameSpace = (Name.qualifier? name.text).getD
    (((v.get? "namespace").map text).getD space)
  qualified : s.name = Name.qualify s.nameSpace name.text
  kind : s.kind = kind
  span : s.span = ⟨v.start, v.raw.length⟩
  uri : s.uri = uri
  generation : s.generation = generation

section

variable {uri space : Bytes} {generation : UInt64} {kind : SymbolKind} {v : Json} {s : Symbol}

theorem makes_symbol? (h : symbol? uri generation space kind v = some s) :
    ∃ name, Makes uri generation space kind v name s := by
  rw [symbol?, Option.bind_eq_bind, Option.bind_eq_some_iff] at h
  obtain ⟨name, found, h⟩ := h
  by_cases bad : (!name.isString || List.isEmpty name.text) = true
  · simp [bad] at h
  · simp only [bad, if_false, Bool.false_eq_true, Option.some.injEq] at h
    simp only [Bool.or_eq_true, Bool.not_eq_true', List.isEmpty_iff, not_or, Bool.not_eq_false] at bad
    subst h
    refine ⟨name, found, bad.1, bad.2, ?_, rfl, rfl, rfl, rfl, rfl⟩
    cases Name.qualifier? name.text <;> rfl

theorem own_symbol? (h : symbol? uri generation space kind v = some s) :
    s.uri = uri ∧ s.generation = generation := by
  obtain ⟨name, made⟩ := makes_symbol? h
  exact ⟨made.uri, made.generation⟩

end

theorem symbols_array (uri : Bytes) (g : UInt64) (space : Bytes) (piece : Piece)
    (items : List Json) :
    symbols uri g space (array piece items) = items.flatMap (symbols uri g space) := by
  rw [symbols.eq_def]
  simp

/-- What the value of an object declares, without the reasons for termination. -/
theorem symbols_object (uri : Bytes) (g : UInt64) (space : Bytes) (piece : Piece)
    (members : List (Bytes × Json)) :
    symbols uri g space (object piece members) =
      ((object piece members).get? "type").elim [] fun type =>
        if type.isObject || type.isArray then symbols uri g space type
        else if type.text = Bytes.ofString "array" then
          ((object piece members).get? "items").elim [] (symbols uri g space)
        else if type.text = Bytes.ofString "map" then
          ((object piece members).get? "values").elim [] (symbols uri g space)
        else
          (symbolKind? type.text).elim [] fun kind =>
            (symbol? uri g space kind (object piece members)).elim [] fun s =>
              s :: if kind = .record || kind = .error then
                ((object piece members).get? "fields").elim [] fun fields =>
                  fields.elements.flatMap fun f =>
                    (f.get? "type").elim [] (symbols uri g s.nameSpace)
              else [] := by
  rw [symbols.eq_def]
  dsimp only
  cases (object piece members).get? "type" with
  | none => rfl
  | some type =>
    dsimp only [Option.elim_some]
    split_ifs
    · rfl
    · cases (object piece members).get? "items" <;> rfl
    · cases (object piece members).get? "values" <;> rfl
    · cases symbolKind? type.text with
      | none => rfl
      | some kind =>
        dsimp only [Option.elim_some]
        cases symbol? uri g space kind (object piece members) with
        | none => rfl
        | some s =>
          dsimp only [Option.elim_some]
          split_ifs
          · cases (object piece members).get? "fields" with
            | none => rfl
            | some fields =>
              dsimp only [Option.elim_some]
              rw [List.flatMap_subtype (g := fun f =>
                (f.get? "type").elim [] (symbols uri g s.nameSpace)), List.unattach_attach]
              intro f _
              dsimp only
              cases f.get? "type" <;> rfl
          · rfl

theorem mem_elim_nil {α β : Type} {o : Option α} {f : α → List β} {b : β} :
    b ∈ o.elim [] f ↔ ∃ a, o = some a ∧ b ∈ f a := by
  cases o <;> simp

/-- What is true of each symbol that a schema of one kind declares is true of all symbols. -/
theorem forall_symbols {P : Symbol → Prop} {uri : Bytes} {generation : UInt64}
    (declared : ∀ {space kind v s}, symbol? uri generation space kind v = some s → P s) (space : Bytes)
    (v : Json) : ∀ s ∈ symbols uri generation space v, P s := by
  induction size : sizeOf v using Nat.strongRecOn generalizing v space with
  | ind k ih =>
    subst size
    have within (space : Bytes) {w : Option Json} (smaller : ∀ i, w = some i → sizeOf i < sizeOf v) :
        ∀ s ∈ w.elim [] (symbols uri generation space), P s := by
      cases w with
      | none => exact nofun
      | some i => exact ih _ (smaller i rfl) space i rfl
    cases v with
    | array piece items =>
      rw [symbols_array]
      intro s mem
      obtain ⟨i, here, mem⟩ := List.mem_flatMap.mp mem
      have := List.sizeOf_lt_of_mem here
      exact ih _ (by simp only [array.sizeOf_spec]; omega) space i rfl s mem
    | object piece members =>
      rw [symbols_object]
      cases ht : (object piece members).get? "type" with
      | none => exact nofun
      | some type =>
        dsimp only [Option.elim_some]
        split_ifs
        · exact ih _ (sizeOf_get? ht) space type rfl
        · exact within space fun i hi => sizeOf_get? hi
        · exact within space fun i hi => sizeOf_get? hi
        · intro s mem
          obtain ⟨kind, -, mem⟩ := mem_elim_nil.mp mem
          obtain ⟨outer, found, mem⟩ := mem_elim_nil.mp mem
          rcases List.mem_cons.mp mem with rfl | mem
          · exact declared found
          split_ifs at mem
          · obtain ⟨fields, hf, mem⟩ := mem_elim_nil.mp mem
            obtain ⟨f, here, mem⟩ := List.mem_flatMap.mp mem
            refine within outer.nameSpace (fun t hg => ?_) s mem
            have h1 := sizeOf_get? hf
            have h2 := sizeOf_elements here
            have h3 := sizeOf_get? hg
            omega
          · contradiction
    | _ => simp [symbols]

/-- The symbols of a schema belong to the document that it is read from. -/
theorem own_symbols (uri space : Bytes) (generation : UInt64) (v : Json) :
    ∀ s ∈ symbols uri generation space v, s.uri = uri ∧ s.generation = generation :=
  forall_symbols own_symbol? space v

end Json

namespace Table

theorem of_ofJsonText (serial : Nat) (uri text : Bytes) (generation : UInt64) :
    (ofJsonText serial uri text generation).Of serial uri generation none := by
  have declared {t : Table} (ht : t.Of serial uri generation none) {symbols : List Symbol}
      (own : ∀ s ∈ symbols, s.uri = uri ∧ s.generation = generation) :
      (symbols.foldl add t).Of serial uri generation none := by
    induction symbols generalizing t with
    | nil => exact ht
    | cons s rest ih =>
      obtain ⟨here, now⟩ := own s List.mem_cons_self
      refine ih (Extends.of (extends_add ?_ ?_) ht) fun s mem => own s (.tail _ mem)
      · rw [here, ht.uri]
      · rw [now, ht.generation]
  have empty := of_empty serial uri generation [] none
  unfold ofJsonText
  cases Json.read? text with
  | none => exact empty.finish [] _
  | some root =>
    dsimp only
    refine Of.finish ?_ _ _
    cases root.get? "protocol" with
    | none => exact declared empty fun s mem => Json.own_symbols _ _ _ _ s mem
    | some name =>
      refine declared (Extends.of (extends_add rfl rfl) (of_empty serial uri generation _ none))
        fun s mem => ?_
      obtain ⟨v, -, mem⟩ := List.mem_flatMap.mp mem
      exact Json.own_symbols _ _ _ _ s mem

end Table

end AvroIdl
