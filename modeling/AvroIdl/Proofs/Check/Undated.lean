import AvroIdl.Check
import AvroIdl.Proofs.Symbol.Undated

/-!
# Stamps make no difference to checks

What a reference means and what is wrong with a document do not depend on when the documents were
read: `Reference.undated_resolve` and `CheckInput.problems_undated`.
-/

namespace AvroIdl

/-! ## Resolution -/

/-- What a reference means, without generations. -/
def Resolution.undated : Resolution → Resolution
  | resolved s => resolved s.undated
  | ambiguous candidates => ambiguous (candidates.map Symbol.undated)
  | unresolved => unresolved
  | primitive name => primitive name

theorem Resolution.undated_pick? (found : List Symbol) :
    (pick? found).map undated = pick? (found.map Symbol.undated) := by
  match found with
  | [] => rfl
  | [_] => rfl
  | _ :: _ :: _ => rfl

namespace Reference

theorem undated_search? (scope : Scope) {find : Table → List Symbol}
    (strip : ∀ t, find t.undated = (find t).map Symbol.undated) :
    (search? scope find).map Resolution.undated =
      (Resolution.pick? (find scope.own.undated)).or
        (Resolution.pick? ((scope.distinctImports.map Table.undated).flatMap find)) := by
  have imports : (scope.distinctImports.map Table.undated).flatMap find =
      (scope.distinctImports.flatMap find).map Symbol.undated := by
    rw [List.flatMap_map, List.map_flatMap]
    simp only [strip]
  rw [strip, imports, ← Resolution.undated_pick?, ← Resolution.undated_pick?, ← Option.map_or,
    search?, Option.orElse_eq_orElse, Option.orElse_eq_or]

/-- References mean the same, but for generations, where the same is visible but for generations. -/
theorem undated_resolve (r : Reference) {s s' : Scope} (own : s.own.undated = s'.own.undated)
    (imports : s.distinctImports.map Table.undated = s'.distinctImports.map Table.undated) :
    (r.resolve s).undated = (r.resolve s').undated := by
  have search {find : Table → List Symbol}
      (strip : ∀ t, find t.undated = (find t).map Symbol.undated) :
      (search? s find).map Resolution.undated = (search? s' find).map Resolution.undated := by
    rw [undated_search? s strip, undated_search? s' strip, own, imports]
  have byName : (r.fullNames.findSome? fun n => search? s (·.lookup n)).map Resolution.undated =
      (r.fullNames.findSome? fun n => search? s' (·.lookup n)).map Resolution.undated := by
    rw [List.map_findSome?, List.map_findSome?]
    congr 1
    funext n
    exact search fun t => t.lookup_undated n
  have bySimple : (search? s (·.lookupSimple r.name)).map Resolution.undated =
      (search? s' (·.lookupSimple r.name)).map Resolution.undated :=
    search fun t => t.lookupSimple_undated r.name
  have strip (o : Option Resolution) :
      (o.getD .unresolved).undated = (o.map Resolution.undated).getD .unresolved := by
    cases o <;> rfl
  rw [resolve, resolve]
  split_ifs
  · rfl
  · simp only [strip, Option.orElse_eq_orElse, Option.orElse_eq_or, Option.map_or, byName]
  · simp only [strip, Option.orElse_eq_orElse, Option.orElse_eq_or, Option.map_or, byName, bySimple]

end Reference

/-! ## Types and values -/

namespace Element

theorem hasKind_undated (p : NodeKind → Bool) (e : Element) :
    e.undated.hasKind p = e.hasKind p := by
  cases e <;> simp [hasKind, Label.undated]

mutual

theorem typeExpr_undated (e : Element) : e.undated.typeExpr = e.typeExpr := by
  cases e with
  | leaf t => rfl
  | node l children =>
    have node : (⟨0, l.undated, children.map undated⟩ : Node) = Node.undated ⟨0, l, children⟩ := rfl
    rw [undated_node, typeExpr, typeExpr, node, Node.name?_undated, typeExprAmong_undated children]
    rfl

theorem typeExprAmong_undated (es : List Element) :
    typeExprAmong (es.map undated) = typeExprAmong es := by
  cases es with
  | nil => rfl
  | cons e rest =>
    rw [List.map_cons, typeExprAmong, typeExprAmong, hasKind_undated, typeExpr_undated e,
      typeExprAmong_undated rest]

end

theorem literalAmong_undated (es : List Element) :
    literalAmong (es.map undated) = literalAmong es := by
  induction es with
  | nil => rfl
  | cons e rest ih => cases e <;> simp [literalAmong, ih]

mutual

theorem jsonTerm_undated (e : Element) : e.undated.jsonTerm = e.jsonTerm := by
  cases e with
  | leaf t => rfl
  | node l children =>
    rw [undated_node, jsonTerm, jsonTerm, memberTerms_undated children, itemTerms_undated children,
      literalAmong_undated]
    rfl

theorem itemTerms_undated (es : List Element) : itemTerms (es.map undated) = itemTerms es := by
  cases es with
  | nil => rfl
  | cons e rest =>
    rw [List.map_cons, itemTerms, itemTerms, hasKind_undated, jsonTerm_undated e,
      itemTerms_undated rest]

theorem memberTerms_undated (es : List Element) :
    memberTerms (es.map undated) = memberTerms es := by
  cases es with
  | nil => rfl
  | cons e rest =>
    cases e with
    | leaf t => rw [List.map_cons, undated_leaf, memberTerms, memberTerms, memberTerms_undated rest]
    | node l children =>
      rw [List.map_cons, undated_node, memberTerms, memberTerms, firstTerm?_undated children,
        memberTerms_undated rest]
      rfl

theorem firstTerm?_undated (es : List Element) : firstTerm? (es.map undated) = firstTerm? es := by
  cases es with
  | nil => rfl
  | cons e rest =>
    rw [List.map_cons, firstTerm?, firstTerm?, hasKind_undated, jsonTerm_undated e,
      firstTerm?_undated rest]

end

end Element

/-- What references mean, without generations. -/
def Meanings.undated (meanings : Meanings) : Meanings :=
  meanings.map fun (node, result) => (node, result.undated)

theorem JsonTerm.fitsResolution_undated (v : JsonTerm) (r : Resolution) :
    v.fitsResolution r.undated = v.fitsResolution r := by
  cases r <;> rfl

theorem Meanings.lookup_undated (meanings : Meanings) (node : NodeId) :
    List.lookup node meanings.undated = (meanings.lookup node).map Resolution.undated := by
  induction meanings with
  | nil => rfl
  | cons entry rest ih =>
    obtain ⟨other, result⟩ := entry
    change List.lookup node ((other, result.undated) :: Meanings.undated rest) = _
    rw [List.lookup_cons, List.lookup_cons, ih]
    cases node == other <;> rfl

theorem TypeExpr.accepts_undated (meanings : Meanings) (t : TypeExpr) (v : JsonTerm) :
    t.accepts meanings.undated v = t.accepts meanings v := by
  match t with
  | ref node name =>
    rw [accepts, accepts, Meanings.lookup_undated]
    cases meanings.lookup node with
    | none => rfl
    | some result => exact v.fitsResolution_undated result
  | nullable t => rw [accepts, accepts, accepts_undated meanings t]
  | array t =>
    have items : t.accepts meanings.undated = t.accepts meanings :=
      funext (accepts_undated meanings t)
    cases v <;> simp only [accepts, items]
  | map t =>
    have values : t.accepts meanings.undated = t.accepts meanings :=
      funext (accepts_undated meanings t)
    cases v <;> simp only [accepts, values]
  | union none => rfl
  | union (some t) => rw [accepts, accepts, accepts_undated meanings t]
  | decimal => rfl
  | other kind => rfl

/-! ## Nodes -/

namespace Node

variable (n : Node)

theorem element_undated : Element.node n.undated.label n.undated.children =
    (Element.node n.label n.children).undated :=
  (Element.undated_node n.label n.children).symm

theorem checkFields_undated : n.undated.checkFields = n.checkFields := by
  simp [checkFields, List.flatMap_map, List.filterMap_map]

theorem jsonChild?_undated : n.undated.jsonChild? = n.jsonChild?.map undated := by
  rw [jsonChild?, jsonChild?, childNodes_undated, List.find?_map]
  rfl

theorem checkDefaults_undated (meanings : Meanings) :
    n.undated.checkDefaults meanings.undated = n.checkDefaults meanings := by
  rw [checkDefaults, checkDefaults, typeChild?_undated]
  cases n.typeChild? with
  | none => rfl
  | some typeNode =>
    dsimp only [Option.map_some]
    rw [hasError_undated, element_undated, Element.typeExpr_undated, childrenOf_undated,
      List.filterMap_map]
    split_ifs
    · rfl
    · congr 1
      funext variableNode
      rw [Function.comp_apply, jsonChild?_undated]
      cases variableNode.jsonChild? with
      | none => rfl
      | some valueNode =>
        simp only [Option.map_some, Option.bind_eq_bind, Option.bind_some, hasError_undated,
          element_undated, Element.jsonTerm_undated, TypeExpr.accepts_undated, span_undated]

theorem plainName_undated : n.undated.plainName = n.plainName := by simp [plainName]

theorem checkEnum_undated : n.undated.checkEnum = n.checkEnum := by
  have names : ((n.undated.childrenOf .enumSymbol).filterMap Node.name?) =
      (n.childrenOf .enumSymbol).filterMap Node.name? := by
    simp [List.filterMap_map]
  rw [checkEnum, checkEnum, names, child?_undated, plainName_undated]
  cases n.child? .enumDefault with
  | none => rfl
  | some choice => simp only [Option.map_some, Option.bind_eq_bind, Option.bind_some, name?_undated]

theorem checkMessage_undated : n.undated.checkMessage = n.checkMessage := by
  have names : ((n.undated.childrenOf .formalParam).filterMap fun p =>
      (p.child? .variableDecl).bind Node.name?) =
      (n.childrenOf .formalParam).filterMap fun p => (p.child? .variableDecl).bind Node.name? := by
    rw [childrenOf_undated, List.filterMap_map]
    congr 1
    funext p
    rw [Function.comp_apply, child?_undated]
    cases p.child? .variableDecl <;> simp
  rw [checkMessage, checkMessage, names, typeChild?_undated, plainName_undated, leaves_undated]
  cases n.typeChild? with
  | none => rfl
  | some result => rfl

theorem check_undated (meanings : Meanings) :
    n.undated.check meanings.undated = n.check meanings := by
  rw [check, check, kind_undated, checkFields_undated, checkDefaults_undated, checkEnum_undated,
    checkMessage_undated]

end Node

namespace Element

mutual

theorem check_undated (meanings : Meanings) (start : Nat) (e : Element) :
    e.undated.check meanings.undated start = e.check meanings start := by
  cases e with
  | leaf t => rfl
  | node l children =>
    have node : (⟨start, l.undated, children.map undated⟩ : Node) =
        Node.undated ⟨start, l, children⟩ := rfl
    rw [undated_node, check, check, node, Node.check_undated,
      checkAll_undated meanings start children]
    rfl

theorem checkAll_undated (meanings : Meanings) (start : Nat) (es : List Element) :
    checkAll meanings.undated start (es.map undated) = checkAll meanings start es := by
  cases es with
  | nil => rfl
  | cons e rest =>
    rw [List.map_cons, checkAll, checkAll, width_undated, check_undated meanings start e,
      checkAll_undated meanings _ rest]

end

end Element

/-! ## Documents -/

/-- What an import leads to, without generations. -/
def ImportTarget.undated (target : ImportTarget) : ImportTarget :=
  { target with
    table := target.table.map Table.undated
    tables := target.tables.map Table.undated }

namespace CheckInput

/-- What a document is checked against, without serial numbers and generations. -/
def undated (i : CheckInput) : CheckInput :=
  { i with
    scope := { i.scope with own := i.own.undated, imports := i.scope.imports.map Table.undated }
    results := i.results.map Resolution.undated
    targets := i.targets.map ImportTarget.undated }

variable (i : CheckInput)

theorem own_undated : i.undated.own = i.own.undated := rfl

theorem meanings_undated (known : i.results.length = i.own.references.length) :
    i.undated.meanings = i.meanings.map Resolution.undated := by
  have results : i.undated.results = i.results.map Resolution.undated := rfl
  rw [meanings, meanings, own_undated, results, List.length_map, Table.references_undated,
    if_pos known, if_pos known]

theorem checkImport?_undated (statement : Import) (target : ImportTarget) :
    checkImport? statement target.undated = checkImport? statement target := by
  obtain ⟨state, uri, table, tables, error⟩ := target
  cases state with
  | loaded => cases table <;> rfl
  | _ => rfl

theorem statements_undated : i.undated.own.imports.zip i.undated.targets =
    (i.own.imports.zip i.targets).map fun (statement, target) => (statement, target.undated) := by
  rw [own_undated, Table.imports_undated, undated, List.zip_map_right]
  rfl

theorem checkImports_undated : i.undated.checkImports = i.checkImports := by
  rw [checkImports, checkImports, statements_undated, List.filterMap_map]
  simp only [Function.comp_def, checkImport?_undated]

theorem foreign_undated : i.undated.foreign = i.foreign.map Table.undated := by
  rw [foreign, foreign, own_undated, undated, List.filter_map]
  rfl

theorem declaredHere_undated (symbols : List Symbol) :
    Problem.declaredHere (symbols.map Symbol.undated) = Problem.declaredHere symbols := by
  simp only [Problem.declaredHere, List.map_map]
  rfl

theorem checkOwnDuplicates_undated : i.undated.checkOwnDuplicates = i.checkOwnDuplicates := by
  have others (name : Bytes) : i.undated.foreign.flatMap (·.lookup name) =
      (i.foreign.flatMap (·.lookup name)).map Symbol.undated := by
    rw [foreign_undated, List.flatMap_map, List.map_flatMap]
    simp only [Table.lookup_undated]
  rw [checkOwnDuplicates, checkOwnDuplicates, own_undated, Table.types_undated, List.filterMap_map]
  congr 1
  funext s
  rw [Function.comp_apply, others]
  simp only [List.isEmpty_map, Problem.duplicateImported, declaredHere_undated]
  rfl

theorem importedTypes_undated : i.undated.importedTypes = i.importedTypes.map Symbol.undated := by
  rw [importedTypes, importedTypes, foreign_undated, own_undated, List.flatMap_map]
  simp only [Table.types_undated, ← List.map_flatMap, List.filter_map, Function.comp_def,
    Table.lookup_undated, List.isEmpty_map]
  rfl

theorem checkImportedDuplicates_undated :
    i.undated.checkImportedDuplicates = i.checkImportedDuplicates := by
  have names : (i.importedTypes.map Symbol.undated).map (·.name) =
      i.importedTypes.map (·.name) := by
    rw [List.map_map]
    rfl
  rw [checkImportedDuplicates, checkImportedDuplicates, importedTypes_undated, names,
    statements_undated]
  congr 1
  funext name
  have same : (i.importedTypes.map Symbol.undated).filter (fun s => s.name = name) =
      (i.importedTypes.filter fun s => s.name = name).map Symbol.undated := List.filter_map
  have tables (target : ImportTarget) (s : Symbol) :
      (target.undated.tables.any fun t => t.uri = s.uri) =
        target.tables.any fun t => t.uri = s.uri := List.any_map
  dsimp only
  rw [same, List.length_map, List.filter_map, List.length_map, List.map_map]
  simp only [List.any_map, Function.comp_def, Problem.duplicateBetweenImports, declaredHere_undated,
    tables]
  rfl

theorem checkReference?_undated (pending : Bool) (r : Reference) (result : Resolution) :
    checkReference? pending r result.undated = checkReference? pending r result := by
  cases result with
  | ambiguous candidates =>
    simp only [checkReference?, Resolution.undated, Problem.ambiguousType, declaredHere_undated,
      List.map_map]
    rfl
  | _ => rfl

theorem checkReferences_undated (known : i.results.length = i.own.references.length) :
    i.undated.checkReferences = i.checkReferences := by
  rw [checkReferences, checkReferences, i.meanings_undated known, own_undated,
    Table.references_undated, List.zip_map_right, List.filterMap_map]
  congr 1
  funext x
  exact checkReference?_undated _ _ _

theorem checkTree_undated (known : i.results.length = i.own.references.length) :
    i.undated.checkTree = i.checkTree := by
  have tree : i.own.undated.tree = i.own.tree.map Tree.undated := rfl
  rw [checkTree, checkTree, i.meanings_undated known, own_undated, Table.references_undated,
    List.zip_map_right, tree]
  cases i.own.tree with
  | none => rfl
  | some tree =>
    dsimp only [Option.map_some]
    rw [Tree.element_undated]
    exact Element.check_undated _ 0 tree.element

/-- The problems of a document do not depend on when it and its imports were read. -/
theorem problems_undated (known : i.results.length = i.own.references.length) :
    i.undated.problems = i.problems := by
  have cycle : i.undated.checkCycle = i.checkCycle := rfl
  rw [problems, problems, own_undated, Table.diagnostics_undated, checkImports_undated, cycle,
    checkOwnDuplicates_undated, checkImportedDuplicates_undated, i.checkReferences_undated known,
    i.checkTree_undated known]

end CheckInput

end AvroIdl
