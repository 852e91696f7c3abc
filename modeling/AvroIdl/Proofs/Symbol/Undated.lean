import AvroIdl.Proofs.Parser.Undated
import AvroIdl.Proofs.Symbol.Table

/-!
# Stamps make no difference to indexing

Tables that were made of one text at different times differ in their serial numbers and in the
generations of what they hold. `Table.undated` strikes these out: `Document.undated_read`.
-/

namespace AvroIdl

/-- A symbol without the generation of its document. -/
def Symbol.undated (s : Symbol) : Symbol := { s with generation := 0 }

theorem Symbol.undated_inj {a b : Symbol} (same : a.generation = b.generation) :
    a.undated = b.undated ↔ a = b := by
  cases a
  cases b
  simp_all [undated]

namespace NameIndex

/-- An index without generations. -/
def undated (i : NameIndex) : NameIndex :=
  { entries := i.entries.map fun e => (e.1, e.2.map Symbol.undated) }

theorem get_undated (i : NameIndex) (name : Bytes) :
    i.undated.get name = (i.get name).map Symbol.undated := by
  have found := lookup_map i.entries (fun _ => List.map Symbol.undated) name
  rw [get, get, undated, found]
  cases i.entries.lookup name <;> rfl

theorem undated_insert (i : NameIndex) (name : Bytes) (s : Symbol) :
    (i.insert name s).undated = i.undated.insert name s.undated := by
  have known : i.undated.entries.any (·.1 = name) = i.entries.any (·.1 = name) := by
    simp [undated, Function.comp_def]
  rw [insert, insert, known]
  split_ifs
  · simp only [undated, List.map_map, NameIndex.mk.injEq]
    refine List.map_congr_left fun e _ => ?_
    by_cases same : e.1 = name <;> simp [same]
  · simp [undated]

end NameIndex

namespace Table

/-- A table without serial number and generations. -/
def undated (t : Table) : Table :=
  { t with
    serial := 0
    generation := 0
    tree := t.tree.map Tree.undated
    symbols := t.symbols.map Symbol.undated
    byName := t.byName.undated
    bySimple := t.bySimple.undated }

variable (t : Table)

@[simp] theorem uri_undated : t.undated.uri = t.uri := rfl

@[simp] theorem imports_undated : t.undated.imports = t.imports := rfl

@[simp] theorem references_undated : t.undated.references = t.references := rfl

@[simp] theorem diagnostics_undated : t.undated.diagnostics = t.diagnostics := rfl

@[simp] theorem lookup_undated (name : Bytes) :
    t.undated.lookup name = (t.lookup name).map Symbol.undated := t.byName.get_undated name

@[simp] theorem lookupSimple_undated (name : Bytes) :
    t.undated.lookupSimple name = (t.lookupSimple name).map Symbol.undated :=
  t.bySimple.get_undated name

@[simp] theorem types_undated : t.undated.types = t.types.map Symbol.undated := by
  rw [types, types, undated, List.filter_map]
  rfl

theorem protocol?_undated : t.undated.protocol?.isNone = t.protocol?.isNone := by
  rw [protocol?, protocol?, undated, List.find?_map, Option.isNone_map]
  rfl

theorem undated_add (s : Symbol) : (t.add s).undated = t.undated.add s.undated := by
  have protocol : s.undated.isProtocol = s.isProtocol := rfl
  have simple : s.undated.simpleName = s.simpleName := rfl
  rw [add, add, protocol]
  split_ifs
  · simp [undated]
  · simp only [undated, List.map_append, NameIndex.undated_insert, simple]
    rfl

end Table

/-! ## Trees -/

namespace Node

variable (n : Node)

@[simp] theorem annotationText?_undated (name : Bytes) :
    n.undated.annotationText? name = n.annotationText? name := by
  rw [annotationText?, annotationText?, childrenOf_undated, List.findSome?_map]
  congr 1
  funext a
  simp only [Function.comp_def, name?_undated, child?_undated]
  cases a.child? .jsonLiteral <;> simp

@[simp] theorem annotatedNamespace?_undated :
    n.undated.annotatedNamespace? = n.annotatedNamespace? := n.annotationText?_undated _

@[simp] theorem nameText_undated : n.undated.nameText = n.nameText := by simp [nameText]

@[simp] theorem declaredNamespace_undated (enclosing : Bytes) :
    n.undated.declaredNamespace enclosing = n.declaredNamespace enclosing := by
  simp [declaredNamespace]

@[simp] theorem declaredName_undated (enclosing : Bytes) :
    n.undated.declaredName enclosing = n.declaredName enclosing := by
  simp [declaredName]

@[simp] theorem symbolKind?_undated : n.undated.symbolKind? = n.symbolKind? := rfl

@[simp] theorem import?_undated : n.undated.import? = n.import? := by
  simp [import?]

end Node

namespace Table

variable (t : Table)

theorem undated_declare (n : Node) (enclosing : Bytes) :
    (t.declare n enclosing).undated = t.undated.declare n.undated enclosing := by
  unfold declare
  simp only [Node.symbolKind?_undated, Node.name?_undated]
  split
  · rw [undated_add]
    simp [Symbol.undated, undated, Function.comp_def]
  · rfl

theorem undated_addStatement (n : Node) (enclosing : Bytes) :
    (t.addStatement n enclosing).undated = t.undated.addStatement n.undated enclosing := by
  rw [addStatement, addStatement, Node.kind_undated]
  split_ifs
  · simp [undated]
  · exact t.undated_declare n enclosing

theorem undated_foldl {α : Type} {f : Table → α → Table} {strip : α → α}
    (step : ∀ t a, (f t a).undated = f t.undated (strip a)) (as : List α) :
    (as.foldl f t).undated = (as.map strip).foldl f t.undated := by
  induction as generalizing t with
  | nil => rfl
  | cons a rest ih => rw [List.map_cons, List.foldl_cons, List.foldl_cons, ih, step]

theorem undated_addProtocol (n : Node) :
    (t.addProtocol n).undated = t.undated.addProtocol n.undated := by
  have spaced (space : Bytes) :
      (if t.undated.protocol?.isNone then { t.undated with nameSpace := space } else t.undated) =
        (if t.protocol?.isNone then { t with nameSpace := space } else t).undated := by
    rw [protocol?_undated]
    split_ifs <;> rfl
  rw [addProtocol, addProtocol, Node.annotatedNamespace?_undated, Node.name?_undated,
    Node.childNodes_undated, spaced, undated_foldl _ fun t c => t.undated_addStatement c _]
  congr 1
  cases n.name? with
  | none => rfl
  | some name =>
    rw [undated_add]
    simp [Symbol.undated, undated]

theorem undated_addItem (n : Node) : (t.addItem n).undated = t.undated.addItem n.undated := by
  rw [addItem, addItem, Node.kind_undated]
  split_ifs
  · exact t.undated_addProtocol n
  · exact t.undated_addStatement n t.nameSpace

end Table

namespace Element

mutual

theorem references_undated (start : Nat) (space : Bytes) (errorsOnly : Bool) (e : Element) :
    e.undated.references start space errorsOnly = e.references start space errorsOnly := by
  cases e with
  | leaf t => rfl
  | node l children =>
    have node : (⟨start, l.undated, children.map undated⟩ : Node) =
        Node.undated ⟨start, l, children⟩ := rfl
    have among := fun space errorsOnly => referencesAmong_undated start space errorsOnly children
    rw [undated_node, references, references, node]
    simp only [Node.annotatedNamespace?_undated, Node.name?_undated, Node.declaredNamespace_undated,
      among]
    rfl

theorem referencesAmong_undated (start : Nat) (space : Bytes) (errorsOnly : Bool)
    (es : List Element) :
    referencesAmong start space errorsOnly (es.map undated) =
      referencesAmong start space errorsOnly es := by
  cases es with
  | nil => rfl
  | cons e rest =>
    rw [List.map_cons, referencesAmong, referencesAmong, width_undated, references_undated,
      referencesAmong_undated]

end

end Element

namespace Table

/-- Declarations of one generation are told apart without it. -/
theorem duplicates_undated {t : Table} (sound : t.Sound) : t.undated.duplicates = t.duplicates := by
  rw [duplicates, duplicates, types_undated, List.filterMap_map]
  refine List.filterMap_congr fun s mem => ?_
  have now : s.generation = t.generation := (sound.own s (List.mem_filter.mp mem).1).2
  have others : (t.undated.lookup s.name).filter (· ≠ s.undated) =
      ((t.lookup s.name).filter (· ≠ s)).map Symbol.undated := by
    rw [lookup_undated, List.filter_map]
    congr 1
    refine List.filter_congr fun o found => ?_
    rw [sound.byName] at found
    have same := (sound.own o (List.mem_filter.mp (List.mem_filter.mp found).1).1).2
    simp [Symbol.undated_inj (same.trans now.symm)]
  have name : s.undated.name = s.name := rfl
  dsimp only [Function.comp_apply]
  rw [name, others, List.isEmpty_map]
  split_ifs
  · rfl
  · simp only [duplicateDeclaration, List.map_map]
    rfl

/-- The table of an IDL document, before its own problems are found. -/
def indexed (serial : Nat) (uri : Bytes) (tree : Tree) : Table :=
  let space := (tree.root.childrenOf .namespaceDecl).findSome? fun n =>
    n.name?.map fun l => identText l.text
  let t := tree.root.childNodes.foldl addItem
    { serial, uri, generation := tree.generation, nameSpace := space.getD [], tree := some tree }
  { t with references := Element.referencesAmong 0 t.nameSpace false tree.children }

theorem ofTree_eq (serial : Nat) (uri : Bytes) (tree : Tree) :
    ofTree serial uri tree =
      { indexed serial uri tree with diagnostics := (indexed serial uri tree).duplicates } := rfl

theorem undated_indexed (serial : Nat) (uri : Bytes) (tree : Tree) :
    (indexed serial uri tree).undated = indexed 0 uri tree.undated := by
  have space : ((tree.undated.root.childrenOf .namespaceDecl).findSome? fun n =>
      n.name?.map fun l => identText l.text) =
      (tree.root.childrenOf .namespaceDecl).findSome? fun n =>
        n.name?.map fun l => identText l.text := by
    rw [Tree.root_undated, Node.childrenOf_undated, List.findSome?_map]
    simp [Function.comp_def]
  have items (t : Table) : (tree.root.childNodes.foldl addItem t).undated =
      tree.undated.root.childNodes.foldl addItem t.undated := by
    rw [Tree.root_undated, Node.childNodes_undated]
    exact undated_foldl t (fun t n => t.undated_addItem n) _
  have children : tree.undated.children = tree.children.map Element.undated := rfl
  have start (nameSpace : Bytes) :
      ({ serial := 0, uri, generation := tree.undated.generation, nameSpace,
         tree := some tree.undated } : Table) =
        undated { serial, uri, generation := tree.generation, nameSpace, tree := some tree } := rfl
  rw [indexed, indexed, space, children]
  simp only [Element.referencesAmong_undated, start, ← items]
  rfl

theorem undated_ofTree (serial : Nat) (uri : Bytes) (tree : Tree) :
    (ofTree serial uri tree).undated = ofTree 0 uri tree.undated := by
  have sound := (of_ofTree serial uri tree).sound
  have duplicates : (indexed 0 uri tree.undated).duplicates =
      (indexed serial uri tree).duplicates := by
    rw [← undated_indexed serial uri tree]
    exact duplicates_undated ⟨sound.byName, sound.bySimple, sound.own⟩
  rw [ofTree_eq, ofTree_eq, duplicates, ← undated_indexed serial uri tree]
  rfl

end Table

/-! ## JSON -/

namespace Json

theorem undated_symbol? (uri : Bytes) (generation : UInt64) (space : Bytes) (kind : SymbolKind)
    (v : Json) :
    (symbol? uri generation space kind v).map Symbol.undated = symbol? uri 0 space kind v := by
  unfold symbol?
  cases v.get? "name" with
  | none => rfl
  | some nameValue =>
    simp only [Option.bind_eq_bind, Option.bind_some]
    split_ifs <;> rfl

theorem undated_symbols (uri : Bytes) (generation : UInt64) (space : Bytes) (v : Json) :
    (symbols uri generation space v).map Symbol.undated = symbols uri 0 space v := by
  induction size : sizeOf v using Nat.strongRecOn generalizing v space with
  | ind k ih =>
    subst size
    have within (space : Bytes) {w : Option Json}
        (smaller : ∀ i, w = some i → sizeOf i < sizeOf v) :
        (w.elim [] (symbols uri generation space)).map Symbol.undated =
          w.elim [] (symbols uri 0 space) := by
      cases w with
      | none => rfl
      | some i => exact ih _ (smaller i rfl) space i rfl
    cases v with
    | array piece items =>
      rw [symbols_array, symbols_array, List.map_flatMap]
      refine List.flatMap_congr fun i mem => ih _ ?_ space i rfl
      have := List.sizeOf_lt_of_mem mem
      simp only [array.sizeOf_spec]
      omega
    | object piece members =>
      rw [symbols_object, symbols_object]
      cases ht : (object piece members).get? "type" with
      | none => rfl
      | some type =>
        dsimp only [Option.elim_some]
        split_ifs
        · exact ih _ (sizeOf_get? ht) space type rfl
        · exact within space fun i hi => sizeOf_get? hi
        · exact within space fun i hi => sizeOf_get? hi
        · cases symbolKind? type.text with
          | none => rfl
          | some kind =>
            dsimp only [Option.elim_some]
            rw [← undated_symbol? uri generation]
            cases symbol? uri generation space kind (object piece members) with
            | none => rfl
            | some s =>
              have nameSpace : s.undated.nameSpace = s.nameSpace := rfl
              dsimp only [Option.elim_some, Option.map_some]
              rw [List.map_cons, nameSpace]
              congr 1
              split_ifs
              · cases hf : (object piece members).get? "fields" with
                | none => rfl
                | some fields =>
                  dsimp only [Option.elim_some]
                  rw [List.map_flatMap]
                  refine List.flatMap_congr fun f mem => within s.nameSpace fun t hg => ?_
                  have h1 := sizeOf_get? hf
                  have h2 := sizeOf_elements mem
                  have h3 := sizeOf_get? hg
                  omega
              · rfl
    | _ => simp [symbols]

end Json

namespace Table

/-- The table of a JSON document, before its own problems are found. -/
def listed (serial : Nat) (uri text : Bytes) (generation : UInt64) (root : Json) : Table :=
  match root.get? "protocol" with
  | some name =>
    let space := Json.textOf (root.get? "namespace")
    let protocol : Symbol :=
      { name := Name.qualify space name.text
        nameSpace := space
        kind := .protocol
        uri
        generation
        decl := none
        span := ⟨0, text.length⟩
        nameSpan := name.innerSpan }
    let types := ((root.get? "types").map Json.elements).getD []
    (types.flatMap (Json.symbols uri generation space)).foldl add
      (add { serial, uri, generation, nameSpace := space } protocol)
  | none => (root.symbols uri generation []).foldl add { serial, uri, generation }

theorem ofJsonText_eq (serial : Nat) (uri text : Bytes) (generation : UInt64) {root : Json}
    (readable : Json.read? text = some root) :
    ofJsonText serial uri text generation =
      { listed serial uri text generation root with
        diagnostics := (listed serial uri text generation root).duplicates } := by
  rw [ofJsonText, readable]
  rfl

theorem undated_listed (serial : Nat) (uri text : Bytes) (generation : UInt64) (root : Json) :
    (listed serial uri text generation root).undated = listed 0 uri text 0 root := by
  unfold listed
  cases root.get? "protocol" with
  | none =>
    dsimp only
    rw [undated_foldl _ undated_add, Json.undated_symbols]
    rfl
  | some name =>
    dsimp only
    rw [undated_foldl _ undated_add, List.map_flatMap, undated_add]
    simp only [Json.undated_symbols]
    rfl

theorem undated_ofJsonText (serial : Nat) (uri text : Bytes) (generation : UInt64) :
    (ofJsonText serial uri text generation).undated = ofJsonText 0 uri text 0 := by
  cases readable : Json.read? text with
  | none =>
    rw [ofJsonText, ofJsonText, readable]
    rfl
  | some root =>
    have sound := (of_ofJsonText serial uri text generation).sound
    rw [ofJsonText_eq _ _ _ _ readable] at sound
    have duplicates : (listed 0 uri text 0 root).duplicates =
        (listed serial uri text generation root).duplicates := by
      rw [← undated_listed serial uri text generation root]
      exact duplicates_undated ⟨sound.byName, sound.bySimple, sound.own⟩
    rw [ofJsonText_eq _ _ _ _ readable, ofJsonText_eq _ _ _ _ readable, duplicates,
      ← undated_listed serial uri text generation root]
    rfl

end Table

namespace Document

/-- A document without serial number and generations. -/
def undated (d : Document) : Document := { d with table := d.table.undated }

/-- Without its stamps a document is what is read as generation zero. -/
theorem undated_read (serial : Nat) (uri : Bytes) (kind : DocumentKind) (text : Bytes)
    (opts : ParseOptions) :
    (read serial uri kind text opts).undated =
      read 0 uri kind text { opts with generation := 0 } := by
  cases kind with
  | idl =>
    simp only [undated, read, Table.undated_ofTree, Tree.undated_parse]
  | protocol | schema =>
    simp only [undated, read, Table.undated_ofJsonText]

end Document

end AvroIdl
