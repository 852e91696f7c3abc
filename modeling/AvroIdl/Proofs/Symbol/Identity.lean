import AvroIdl.Proofs.Json.Place
import AvroIdl.Proofs.Symbol.Coverage

/-!
# Different declarations

No table lists a declaration twice: `Table.Genuine.nodup`. The symbols of an IDL document are those
of different nodes, `Table.nodup_decls`, and the symbols of a JSON document start at different
places, `Table.ascending_ofJsonText`.
-/

namespace AvroIdl

/-! ## Nodes -/

/-- The numbers of a node and of all below it. -/
theorem Node.ids_element (n : Node) :
    n.element.ids = n.id :: n.childNodes.flatMap fun c => c.element.ids := by
  rw [← Element.map_id_nodesFrom n.element n.start,
    show n.element.nodesFrom n.start = n :: Element.nodesAmong n.start n.children from rfl,
    Element.nodesAmong_eq, List.map_cons, List.map_flatMap]
  simp only [Element.map_id_nodesFrom]

theorem Tree.ids_eq (tree : Tree) :
    tree.element.ids = tree.root.id :: tree.root.childNodes.flatMap fun c => c.element.ids :=
  tree.root.ids_element

namespace Table

/-- The symbols that are added to a table are those of different nodes, in the order of the nodes. -/
def Tells (t t' : Table) (ids : List NodeId) : Prop :=
  ∃ ss, t'.symbols = t.symbols ++ ss ∧ (ss.map Symbol.decl).Sublist (ids.map some)

variable {t t' t'' : Table} {ids others : List NodeId}

theorem tells_of_eq (same : t'.symbols = t.symbols) (ids : List NodeId) : t.Tells t' ids :=
  ⟨[], by rw [same, List.append_nil], List.nil_sublist _⟩

theorem Tells.trans (h : t.Tells t' ids) (h' : t'.Tells t'' others) :
    t.Tells t'' (ids ++ others) := by
  obtain ⟨ss, added, listed⟩ := h
  obtain ⟨ss', added', listed'⟩ := h'
  refine ⟨ss ++ ss', by rw [added', added, List.append_assoc], ?_⟩
  rw [List.map_append, List.map_append]
  exact listed.append listed'

theorem tells_foldl {f : Table → Node → Table} (ns : List Node)
    (step : ∀ (t : Table) (n : Node), t.Tells (f t n) n.element.ids) (t : Table) :
    t.Tells (ns.foldl f t) (ns.flatMap fun n => n.element.ids) := by
  induction ns generalizing t with
  | nil => exact tells_of_eq rfl _
  | cons n rest ih => exact (step t n).trans (ih _)

theorem tells_add (t : Table) {s : Symbol} {n : Node} (decl : s.decl = some n.id) :
    t.Tells (t.add s) [n.id] :=
  ⟨[s], symbols_add t s, by simp [decl]⟩

theorem tells_addStatement (t : Table) (n : Node) (enclosing : Bytes) :
    t.Tells (t.addStatement n enclosing) n.element.ids := by
  rw [n.ids_element]
  unfold addStatement declare
  split_ifs
  · exact tells_of_eq rfl _
  · split
    · exact (tells_add t rfl).trans (tells_of_eq rfl _)
    · exact tells_of_eq rfl _

/-- A protocol and what stands in it are different nodes. -/
theorem tells_addProtocol (t : Table) (n : Node) : t.Tells (t.addProtocol n) n.element.ids := by
  have spaced (space : Bytes) :
      (if t.protocol?.isNone then { t with nameSpace := space } else t).symbols = t.symbols := by
    split_ifs <;> rfl
  rw [n.ids_element]
  unfold addProtocol
  refine .trans (?_ : t.Tells _ [n.id]) (tells_foldl _ (fun t c => t.tells_addStatement c _) _)
  cases n.name? with
  | some name => exact (tells_of_eq (spaced _) []).trans (tells_add _ rfl)
  | none => exact tells_of_eq (spaced _) _

theorem tells_addItem (t : Table) (n : Node) : t.Tells (t.addItem n) n.element.ids := by
  unfold addItem
  split_ifs
  · exact t.tells_addProtocol n
  · exact t.tells_addStatement n _

/-- The symbols of an IDL document are those of different nodes. -/
theorem nodup_decls {tree : Tree} (lossless : tree.Lossless) (serial : Nat) (uri : Bytes) :
    ((ofTree serial uri tree).symbols.map Symbol.decl).Nodup := by
  obtain ⟨ss, added, listed⟩ := tells_foldl tree.root.childNodes tells_addItem (empty serial uri tree)
  have ids := lossless.nodup
  rw [tree.ids_eq, List.nodup_cons] at ids
  rw [symbols_ofTree, added]
  exact listed.nodup (ids.2.map fun _ _ => Option.some.inj)

end Table

/-! ## Places -/

namespace Json

/-- Symbols that start between two offsets, each after the one before it. -/
structure Ascending (low high : Nat) (ss : List Symbol) : Prop where
  within : ∀ s ∈ ss, low ≤ s.span.start ∧ s.span.start < high
  order : ss.Pairwise fun a b => a.span.start < b.span.start

variable {low mid high : Nat} {ss ss' : List Symbol} {vs : List Json} {v : Json}

theorem Ascending.nil : Ascending low high [] := ⟨by simp, .nil⟩

theorem Ascending.low_mono (h : Ascending mid high ss) (le : low ≤ mid) : Ascending low high ss :=
  ⟨fun s mem => ⟨Nat.le_trans le (h.within s mem).1, (h.within s mem).2⟩, h.order⟩

theorem Ascending.cons {s : Symbol} (low_le : low ≤ s.span.start) (lt_high : s.span.start < high)
    (h : Ascending (s.span.start + 1) high ss) : Ascending low high (s :: ss) := by
  refine ⟨fun s' mem => ?_, .cons (fun s' mem => (h.within s' mem).1) h.order⟩
  rcases List.mem_cons.mp mem with rfl | mem
  · exact ⟨low_le, lt_high⟩
  · have := h.within s' mem
    omega

theorem Ascending.append (h : Ascending low mid ss) (h' : Ascending mid high ss') (low_le : low ≤ mid)
    (le_high : mid ≤ high) : Ascending low high (ss ++ ss') := by
  refine ⟨fun s mem => ?_, List.pairwise_append.mpr ⟨h.order, h'.order, fun a left b right => ?_⟩⟩
  · rcases List.mem_append.mp mem with mem | mem
    · have := h.within s mem
      omega
    · have := h'.within s mem
      omega
  · exact Nat.lt_of_lt_of_le (h.within a left).2 (h'.within b right).1

theorem Strung.ascending (strung : Strung low high vs) {f : Json → List Symbol}
    (each : ∀ v ∈ vs, ∀ low high, Lies low high v → Ascending low high (f v)) :
    Ascending low high (vs.flatMap f) := by
  induction vs generalizing low with
  | nil => exact .nil
  | cons v rest ih =>
    obtain _ | ⟨first, le_high, others⟩ := strung
    have := first.bounds
    exact (each v List.mem_cons_self _ _ first).append
      (ih others fun w mem => each w (.tail _ mem)) (by omega) le_high

theorem span_symbol? {uri space : Bytes} {generation : UInt64} {kind : SymbolKind} {s : Symbol}
    (h : symbol? uri generation space kind v = some s) : s.span.start = v.start := by
  obtain ⟨name, made⟩ := makes_symbol? h
  rw [made.span]

/-- Named types are visited in the order of the text. -/
theorem Lies.ascending (lies : Lies low high v) (uri : Bytes) (generation : UInt64) (space : Bytes) :
    Ascending low high (symbols uri generation space v) := by
  induction size : sizeOf v using Nat.strongRecOn generalizing v low high space with
  | ind k ih =>
    subst size
    -- Of what is in the value, only one member at a time is looked at.
    have behind : low ≤ v.start + 1 := Nat.le_succ_of_le lies.bounds.1
    have within (key : Bytes) (space : Bytes) :
        Ascending (v.start + 1) high ((v.get? key).elim [] (symbols uri generation space)) := by
      cases found : v.get? key with
      | none => exact .nil
      | some w => exact ih _ (sizeOf_get? found) (lies.get? found) space rfl
    cases v with
    | array piece items =>
      rw [symbols_array]
      refine (lies.elements.ascending fun v mem low high lies => ?_)
      have := List.sizeOf_lt_of_mem (show v ∈ items from mem)
      exact ih _ (by simp only [array.sizeOf_spec]; omega) lies space rfl
    | object piece members =>
      rw [symbols_object]
      cases ht : (object piece members).get? "type" with
      | none => exact .nil
      | some type =>
        dsimp only [Option.elim_some]
        split_ifs
        · exact (ih _ (sizeOf_get? ht) (lies.get? ht) space rfl).low_mono behind
        · exact (within _ space).low_mono behind
        · exact (within _ space).low_mono behind
        · cases symbolKind? type.text with
          | none => exact .nil
          | some kind =>
            dsimp only [Option.elim_some]
            cases found : symbol? uri generation space kind (object piece members) with
            | none => exact .nil
            | some s =>
              have start := span_symbol? found
              refine .cons (start ▸ lies.bounds.1) (start ▸ lies.bounds.2) ?_
              rw [start]
              split_ifs
              · cases hf : (object piece members).get? "fields" with
                | none => exact .nil
                | some fields =>
                  refine (lies.get? hf).elements.ascending fun f mem low high lies => ?_
                  cases hg : f.get? "type" with
                  | none => exact .nil
                  | some t =>
                    have h1 := sizeOf_get? hf
                    have h2 := sizeOf_elements mem
                    have h3 := sizeOf_get? hg
                    have := lies.bounds
                    exact (ih _ (by omega) (lies.get? hg) s.nameSpace rfl).low_mono (by omega)
              · exact .nil
    | word | number | string =>
      simp only [symbols]
      exact .nil

end Json

namespace Table

theorem symbols_foldl_add (ss : List Symbol) (t : Table) :
    (ss.foldl add t).symbols = t.symbols ++ ss := by
  induction ss generalizing t with
  | nil => exact (List.append_nil _).symm
  | cons s rest ih => rw [List.foldl_cons, ih, symbols_add, List.append_assoc, List.singleton_append]

/-- The symbols of a JSON document start at different places. -/
theorem ascending_ofJsonText (serial : Nat) (uri text : Bytes) (generation : UInt64) :
    (ofJsonText serial uri text generation).symbols.Pairwise fun a b =>
      a.span.start < b.span.start := by
  unfold ofJsonText
  cases read : Json.read? text with
  | none => exact .nil
  | some root =>
    have lies := Json.lies_read? read
    dsimp only
    cases root.get? "protocol" with
    | none =>
      dsimp only
      rw [symbols_foldl_add]
      exact (lies.ascending uri generation []).order
    | some name =>
      dsimp only
      rw [symbols_foldl_add, symbols_add]
      -- The protocol is the whole text, and its types start after it does.
      have types (space : Bytes) : Json.Ascending 1 text.length
          ((((root.get? "types").map Json.elements).getD []).flatMap
            (Json.symbols uri generation space)) := by
        cases found : root.get? "types" with
        | none => exact .nil
        | some types =>
          refine ((lies.get? found).elements.low_mono (by omega)).ascending fun v _ low high lies => ?_
          exact lies.ascending uri generation space
      exact .cons (fun s mem => ((types _).within s mem).1) (types _).order

/-- A table of a document: one of a tree that holds its text, or one of a JSON text. -/
inductive Genuine : Table → Prop where
  | tree (serial : Nat) (uri : Bytes) {tree : Tree} (lossless : tree.Lossless) :
    Genuine (.ofTree serial uri tree)
  | json (serial : Nat) (uri text : Bytes) (generation : UInt64) :
    Genuine (.ofJsonText serial uri text generation)

variable {t : Table}

theorem Genuine.sound (h : t.Genuine) : t.Sound := by
  cases h with
  | tree serial uri lossless => exact (of_ofTree serial uri _).sound
  | json serial uri text generation => exact (of_ofJsonText serial uri text generation).sound

/-- No document lists a declaration twice. -/
theorem Genuine.nodup (h : t.Genuine) : t.symbols.Nodup := by
  cases h with
  | tree serial uri lossless => exact (nodup_decls lossless serial uri).of_map
  | json serial uri text generation =>
    refine (ascending_ofJsonText serial uri text generation).imp fun {a b} before same => ?_
    rw [same] at before
    exact Nat.lt_irrefl _ before

theorem Genuine.nodup_types (h : t.Genuine) : t.types.Nodup := h.nodup.filter _

theorem Genuine.uri_eq (h : t.Genuine) {o : Symbol} (type : o ∈ t.types) : o.uri = t.uri :=
  (h.sound.own o (List.mem_filter.mp type).1).1

end Table

end AvroIdl
