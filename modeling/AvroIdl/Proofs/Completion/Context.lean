import AvroIdl.Completion
import AvroIdl.Proofs.Symbol.Namespace

/-!
# The context of a name

What a name at a place means is found out twice: while the references of a document are collected,
from the root down, and when names are completed, from the leaf up. `NameContext.indexed` is the
first as a function of the nodes around the place.

* `Table.within_reference`: both agree on whether only errors may be meant, and on the namespace they
  agree exactly where `Tree.AgreesAt` says so;
* `Table.within_second_protocol`: in the second protocol of a document they do not.
-/

namespace AvroIdl

/-! ## The nodes around a leaf -/

/-- Nodes from the inside out, each a child of the next, up to the root. -/
inductive Node.Descends (root : Node) : List Node → Prop
  | root : Descends root [root]
  | child {c n : Node} {above : List Node} (way : Descends root (n :: above)) (mem : c ∈ n.childNodes) :
    Descends root (c :: n :: above)

namespace Element

open Node (Descends)

mutual

theorem descends_leafPaths {root n : Node} {above : List Node} (way : Descends root (n :: above))
    {e : Element} {start : Nat}
    (here : ∀ l children, e = node l children → (⟨start, l, children⟩ : Node) ∈ n.childNodes)
    {p : Leaf × List Node} (mem : p ∈ e.leafPaths start (n :: above)) : Descends root p.2 := by
  cases e with
  | leaf t =>
    obtain rfl := List.mem_singleton.mp mem
    exact way
  | node l children =>
    exact descends_leafPathsAll (way.child (here l children rfl)) (fun _ part => part) mem

theorem descends_leafPathsAll {root n : Node} {above : List Node} (way : Descends root (n :: above))
    {es : List Element} {start : Nat} (parts : placed start es ⊆ n.parts)
    {p : Leaf × List Node} (mem : p ∈ leafPathsAll start (n :: above) es) : Descends root p.2 := by
  cases es with
  | nil => contradiction
  | cons e rest =>
    rcases List.mem_append.mp mem with mem | mem
    · refine descends_leafPaths way (fun l children eq => ?_) mem
      subst eq
      exact Node.mem_childNodes.mpr (parts List.mem_cons_self)
    · refine descends_leafPathsAll way (fun part later => parts ?_) mem
      cases e with
      | leaf t => exact .tail _ later
      | node l children => exact .tail _ later

end

end Element

theorem Tree.descends_of_mem {t : Tree} {p : Leaf × List Node} (mem : p ∈ t.leafPaths) :
    t.root.Descends p.2 :=
  Element.descends_leafPathsAll .root (fun _ part => part) mem

namespace Node.Descends

variable {t : Tree} {n c : Node} {above : List Node}

/-- Each node on the way is one of the tree, with all that is below it. -/
theorem nodes_subset (way : t.root.Descends (n :: above)) :
    n.element.nodesFrom n.start ⊆ t.element.nodesFrom 0 := by
  generalize path : n :: above = p at way
  induction way generalizing n above with
  | root =>
    obtain ⟨rfl, -⟩ := List.cons.inj path
    exact List.Subset.refl _
  | @child c' m above' way mem ih =>
    obtain ⟨rfl, rfl⟩ := List.cons.inj path
    refine List.Subset.trans (fun x inside => ?_) (ih rfl)
    refine List.mem_cons_of_mem _ ?_
    rw [show Element.nodesAmong m.start m.children = _ from Element.nodesAmong_eq m]
    exact List.mem_flatMap.mpr ⟨n, mem, inside⟩

theorem element_formed (formed : t.Formed) (way : t.root.Descends (n :: above)) :
    n.element.All Element.Formed := by
  generalize path : n :: above = p at way
  induction way generalizing n above with
  | root =>
    obtain ⟨rfl, -⟩ := List.cons.inj path
    exact formed.nodes
  | child way mem ih =>
    obtain ⟨rfl, rfl⟩ := List.cons.inj path
    exact Element.allOf_iff.mp (ih rfl).2 _ (Node.element_mem mem)

theorem held (formed : t.Formed) (way : t.root.Descends (n :: above)) (mem : c ∈ n.childNodes) :
    n.kind.holds c.kind = true :=
  (way.element_formed formed).1.sited c.label c.children (Node.element_mem mem)

/-- The document is around everything. -/
theorem eq_root (formed : t.Formed) (way : t.root.Descends (n :: above)) (document : n.kind = .document) :
    n = t.root ∧ above = [] := by
  cases way with
  | root => exact ⟨rfl, rfl⟩
  | child way mem =>
    have held := way.held formed mem
    rw [document] at held
    contradiction

/-- A protocol stands in the document. -/
theorem of_protocol (formed : t.Formed) (way : t.root.Descends (n :: above))
    (protocol : n.kind = .protocolDecl) : n ∈ t.root.childNodes ∧ above = [t.root] := by
  cases way with
  | root => exact absurd (formed.root.symm.trans protocol) (by simp)
  | child way mem =>
    have held := way.held formed mem
    rw [protocol] at held
    obtain ⟨rfl, rfl⟩ := way.eq_root formed (of_decide_eq_true held)
    exact ⟨mem, rfl⟩

/-- A record stands in the document, or in a protocol of it. -/
theorem of_record (formed : t.Formed) (way : t.root.Descends (n :: above))
    (record : n.kind = .recordDecl ∨ n.kind = .errorDecl) :
    n ∈ t.root.childNodes ∧ above = [t.root] ∨
      ∃ p ∈ t.root.childNodes, p.kind = .protocolDecl ∧ n ∈ p.childNodes ∧ above = [p, t.root] := by
  cases way with
  | root => rcases record with record | record <;>
      exact absurd (formed.root.symm.trans record) (by simp)
  | @child _ m above way mem =>
    have held := way.held formed mem
    have outer : m.kind = .document ∨ m.kind = .protocolDecl := by
      rcases record with record | record <;> rw [record] at held <;>
        simpa [NodeKind.holds] using held
    rcases outer with document | protocol
    · obtain ⟨rfl, rfl⟩ := way.eq_root formed document
      exact .inl ⟨mem, rfl⟩
    · obtain ⟨item, rfl⟩ := way.of_protocol formed protocol
      exact .inr ⟨m, item, protocol, mem, rfl⟩

end Node.Descends

/-! ## Contexts from the root down -/

/-- Whether a node makes a difference to the context of the names in it. -/
def Node.setsContext (n : Node) : Bool :=
  match n.kind with
  | .protocolDecl | .recordDecl | .errorDecl | .throwsClause => true
  | _ => false

namespace NameContext

/-- The context that the index gives to a name within some nodes, from the inside out. -/
def indexed (space : Bytes) : List Node → NameContext
  | [] => ⟨false, space⟩
  | n :: above =>
    let around := indexed space above
    match n.kind with
    | .protocolDecl => ⟨false, n.protocolNamespace⟩
    | .recordDecl | .errorDecl =>
      ⟨false, if n.name?.isSome then n.declaredNamespace around.nameSpace else around.nameSpace⟩
    | .throwsClause => ⟨true, around.nameSpace⟩
    | _ => around

variable {n : Node}

theorem indexed_cons (plain : n.setsContext = false) (space : Bytes) (above : List Node) :
    indexed space (n :: above) = indexed space above := by
  rw [indexed]
  split <;> simp_all [Node.setsContext]

theorem indexed_record (record : n.kind = .recordDecl ∨ n.kind = .errorDecl) (space : Bytes)
    (above : List Node) :
    indexed space (n :: above) = ⟨false, if n.name?.isSome then
      n.declaredNamespace (indexed space above).nameSpace else (indexed space above).nameSpace⟩ := by
  rcases record with record | record <;> rw [indexed, record]

theorem within_cons (plain : n.setsContext = false) (t : Table) (errorsOnly : Bool)
    (above : List Node) : within t errorsOnly (n :: above) = within t errorsOnly above := by
  rw [within]
  split <;> simp_all [Node.setsContext]

end NameContext

namespace Element

open NameContext (indexed)

mutual

/-- References have the contexts that the nodes around them give. -/
theorem references_indexed {e : Element} {start : Nat} {above : List Node} {space₀ space : Bytes}
    {errorsOnly : Bool} (around : indexed space₀ above = ⟨errorsOnly, space⟩) {r : Reference}
    (mem : r ∈ e.references start space errorsOnly) :
    ∃ p ∈ e.leafPaths start above, r.At p ∧ indexed space₀ p.2 = ⟨r.errorsOnly, r.nameSpace⟩ := by
  cases e with
  | leaf t => contradiction
  | node l children =>
    rw [references] at mem
    rw [leafPaths]
    split at mem
    next kind => exact referencesAmong_indexed (by simp [indexed, Node.kind, kind, Node.protocolNamespace]) mem
    next kind => exact referencesAmong_indexed (by simp [indexed, Node.kind, kind, around]) mem
    next kind => exact referencesAmong_indexed (by simp [indexed, Node.kind, kind, around]) mem
    next kind => exact referencesAmong_indexed (by simp [indexed, Node.kind, kind, around]) mem
    next kind =>
      obtain ⟨name, found, rfl⟩ := List.mem_map.mp mem
      rw [Option.mem_toList] at found
      refine ⟨_, Node.mem_of_name? found above, ⟨⟨_, above, rfl, kind, found, rfl⟩, rfl, rfl, rfl⟩, ?_⟩
      simp [indexed, Node.kind, kind, around]
    next => contradiction
    next => contradiction
    next => contradiction
    next => contradiction
    next protocol record error throws refers _ _ _ _ =>
      refine referencesAmong_indexed ?_ mem
      rw [NameContext.indexed_cons ?_, around]
      simp only [Node.setsContext, Node.kind]

theorem referencesAmong_indexed {es : List Element} {start : Nat} {above : List Node}
    {space₀ space : Bytes} {errorsOnly : Bool}
    (around : indexed space₀ above = ⟨errorsOnly, space⟩) {r : Reference}
    (mem : r ∈ referencesAmong start space errorsOnly es) :
    ∃ p ∈ leafPathsAll start above es, r.At p ∧
      indexed space₀ p.2 = ⟨r.errorsOnly, r.nameSpace⟩ := by
  cases es with
  | nil => contradiction
  | cons e rest =>
    rcases List.mem_append.mp mem with mem | mem
    · obtain ⟨p, leaf, known⟩ := references_indexed around mem
      exact ⟨p, List.mem_append_left _ leaf, known⟩
    · obtain ⟨p, leaf, known⟩ := referencesAmong_indexed around mem
      exact ⟨p, List.mem_append_right _ leaf, known⟩

end

end Element

/-! ## Contexts from the leaf up -/

/-- Where completion and the index agree on the namespace. A record in the document must have taken
the default namespace that the document has in the end, and a protocol that gives the namespace must
give the default one. -/
def Tree.AgreesAt (t : Tree) : List Node → Prop
  | [] => True
  | n :: above =>
    match n.kind with
    | .protocolDecl => n.protocolNamespace = t.defaultNamespace
    | .recordDecl | .errorDecl =>
      if n.name?.isSome then
        above = [t.root] →
          n.declaredNamespace (t.defaultBefore n) = n.declaredNamespace t.defaultNamespace
      else t.AgreesAt above
    | _ => t.AgreesAt above

theorem Tree.agreesAt_record {n : Node} (record : n.kind = .recordDecl ∨ n.kind = .errorDecl)
    (t : Tree) (above : List Node) :
    t.AgreesAt (n :: above) ↔
      if n.name?.isSome then
        above = [t.root] →
          n.declaredNamespace (t.defaultBefore n) = n.declaredNamespace t.defaultNamespace
      else t.AgreesAt above := by
  rcases record with record | record <;> rw [AgreesAt, record]

theorem Tree.agreesAt_cons {n : Node} (plain : n.setsContext = false) (t : Tree) (above : List Node) :
    t.AgreesAt (n :: above) ↔ t.AgreesAt above := by
  rw [AgreesAt]
  split <;> simp_all [Node.setsContext]

namespace Table

open NameContext (within)

variable {tree : Tree} {serial : Nat} {uri : Bytes}

theorem map_decl_of {ss : List Symbol} {ns : List Node} (h : List.Forall₂ Symbol.Of ss ns) :
    ss.map Symbol.decl = (ns.map Node.id).map some := by
  induction h with
  | nil => rfl
  | cons first rest ih => simp only [List.map_cons, ih, first.decl]

/-- A symbol is found by the number of the node that declares it. -/
theorem find?_decl (lossless : tree.Lossless) (formed : tree.Formed) {s : Symbol}
    (mem : s ∈ (ofTree serial uri tree).symbols) {id : NodeId} (decl : s.decl = some id) :
    ((ofTree serial uri tree).symbols.find? fun s => s.decl = some id) = some s := by
  have decls : ((ofTree serial uri tree).symbols.map Symbol.decl).Nodup := by
    rw [map_decl_of (symbols_of formed serial uri)]
    refine List.Nodup.map (fun _ _ => Option.some.inj) (List.Nodup.sublist ?_ lossless.nodup)
    rw [← Element.map_id_nodesFrom _ 0]
    exact List.filter_sublist.map _
  cases found : (ofTree serial uri tree).symbols.find? fun s => s.decl = some id with
  | none =>
    have := List.find?_eq_none.mp found s mem
    simp [decl] at this
  | some s' =>
    have same : s'.decl = s.decl := by
      rw [decl]
      simpa using List.find?_some found
    rw [List.inj_on_of_nodup_map decls (List.mem_of_find?_eq_some found) mem same]

/-- A node without a name declares nothing. -/
theorem find?_unnamed (lossless : tree.Lossless) (formed : tree.Formed) {n : Node} {above : List Node}
    (way : tree.root.Descends (n :: above)) (unnamed : n.name?.isSome = false) :
    ((ofTree serial uri tree).symbols.find? fun s => s.decl = some n.id) = none := by
  rw [List.find?_eq_none]
  intro s mem decl
  obtain ⟨m, declares, of⟩ := exists_of_forall₂ (symbols_of formed serial uri) mem
  have nodup := lossless.nodup
  rw [← Element.map_id_nodesFrom _ 0] at nodup
  have same : m.id = n.id := Option.some.inj (of.decl.symm.trans (of_decide_eq_true decl))
  obtain rfl := List.inj_on_of_nodup_map nodup (List.mem_of_mem_filter declares)
    (way.nodes_subset List.mem_cons_self) same
  obtain ⟨l, named, -⟩ := of.name
  rw [named] at unnamed
  contradiction

/-- Completion takes all protocols for the first one, which gives the default namespace. -/
theorem within_protocol {n : Node} (formed : tree.Formed) (protocol : n.kind = .protocolDecl)
    (errorsOnly : Bool) :
    within (ofTree serial uri tree) errorsOnly [n, tree.root] = ⟨errorsOnly, tree.defaultNamespace⟩ := by
  have document : tree.root.kind = .document := formed.root
  rw [within, protocol]
  cases first : (ofTree serial uri tree).protocol? with
  | none => simp [within, document, nameSpace_ofTree]
  | some s => simp [settled_ofTree s first, nameSpace_ofTree]

theorem within_named {n : Node} {above : List Node} (lossless : tree.Lossless) (formed : tree.Formed)
    (record : n.kind = .recordDecl ∨ n.kind = .errorDecl) {s : Symbol}
    (mem : s ∈ (ofTree serial uri tree).symbols) (decl : s.decl = some n.id) (errorsOnly : Bool) :
    within (ofTree serial uri tree) errorsOnly (n :: above) = ⟨errorsOnly, s.nameSpace⟩ := by
  have found := find?_decl lossless formed mem decl
  rcases record with record | record <;> simp only [within, record, found]

theorem within_unnamed {n : Node} {above : List Node} (lossless : tree.Lossless)
    (formed : tree.Formed) (way : tree.root.Descends (n :: above))
    (record : n.kind = .recordDecl ∨ n.kind = .errorDecl) (unnamed : n.name?.isSome = false)
    (errorsOnly : Bool) :
    within (ofTree serial uri tree) errorsOnly (n :: above) =
      within (ofTree serial uri tree) errorsOnly above := by
  have none : ((ofTree serial uri tree).symbols.find? fun s => s.decl = some n.id) = none :=
    find?_unnamed lossless formed way unnamed
  rcases record with record | record <;> simp only [within, record, none]

/-- Completion finds what the index says, except for namespaces that changed on the way. -/
theorem within_indexed (serial : Nat) (uri : Bytes) (lossless : tree.Lossless)
    (formed : tree.Formed) {path : List Node} (way : tree.root.Descends path) (errorsOnly : Bool) :
    (within (ofTree serial uri tree) errorsOnly path).errorsOnly =
        (errorsOnly || (NameContext.indexed tree.defaultNamespace path).errorsOnly) ∧
      ((within (ofTree serial uri tree) errorsOnly path).nameSpace =
        (NameContext.indexed tree.defaultNamespace path).nameSpace ↔ tree.AgreesAt path) := by
  induction way generalizing errorsOnly with
  | root =>
    have document : tree.root.kind = .document := formed.root
    simp [within, NameContext.indexed, Tree.AgreesAt, document, nameSpace_ofTree]
  | @child n outer above way mem ih =>
    have here := way.child mem
    by_cases throws : n.kind = .throwsClause
    · obtain ⟨errors, space⟩ := ih true
      rw [within, NameContext.indexed, Tree.AgreesAt, throws]
      exact ⟨by rw [errors, Bool.true_or, Bool.or_true], space⟩
    by_cases protocol : n.kind = .protocolDecl
    · obtain ⟨-, around⟩ := here.of_protocol formed protocol
      rw [around, within_protocol formed protocol]
      simp [NameContext.indexed, Tree.AgreesAt, protocol, eq_comm]
    by_cases record : n.kind = .recordDecl ∨ n.kind = .errorDecl
    · have known : ∃ kind, n.symbolKind? = some kind := by
        rcases record with record | record <;> simp [Node.symbolKind?, record]
      obtain ⟨kind, known⟩ := known
      rw [NameContext.indexed_record record, Tree.agreesAt_record record]
      cases named : n.name?.isSome with
      | false =>
        obtain ⟨errors, space⟩ := ih errorsOnly
        rw [within_unnamed lossless formed here record named]
        refine ⟨?_, by simpa using space⟩
        -- No throws clause is around a record.
        have around : (NameContext.indexed tree.defaultNamespace (outer :: above)).errorsOnly = false := by
          rcases here.of_record formed record with ⟨-, around⟩ | ⟨p, -, protocol, -, around⟩
          · rw [around]
            simp [NameContext.indexed, show tree.root.kind = .document from formed.root]
          · rw [around, NameContext.indexed, protocol]
        rw [errors, around]
      | true =>
        rcases here.of_record formed record with ⟨item, around⟩ | ⟨p, item, protocol, inside, around⟩
        · obtain ⟨s, declared, decl, space⟩ := symbol_of_item lossless formed item known named
          rw [within_named lossless formed record declared decl, space, around]
          simp [NameContext.indexed, show tree.root.kind = .document from formed.root]
        · obtain ⟨s, declared, decl, space⟩ := symbol_of_statement formed item protocol inside known named
          rw [within_named lossless formed record declared decl, space, around]
          simp [NameContext.indexed, protocol]
    · have plain : n.setsContext = false := by
        unfold Node.setsContext
        split <;> simp_all
      rw [NameContext.within_cons plain, NameContext.indexed_cons plain, Tree.agreesAt_cons plain]
      exact ih errorsOnly

/-- A reference stands at the leaf that its node is named by, in the context that the nodes around it
give. -/
theorem reference_indexed (lossless : tree.Lossless) (formed : tree.Formed) {r : Reference}
    (mem : r ∈ (ofTree serial uri tree).references) :
    ∃ p ∈ tree.leafPaths, r.At p ∧ tree.pathTo? r.node = some p.2 ∧
      NameContext.indexed tree.defaultNamespace p.2 = ⟨r.errorsOnly, r.nameSpace⟩ := by
  have around : NameContext.indexed tree.defaultNamespace [tree.root] =
      ⟨false, (ofTree serial uri tree).nameSpace⟩ := by
    simp [NameContext.indexed, show tree.root.kind = .document from formed.root, nameSpace_ofTree]
  obtain ⟨p, leaf, here, given⟩ := Element.referencesAmong_indexed around mem
  obtain ⟨n, above, path, -, -, id⟩ := here.written
  refine ⟨p, leaf, here, ?_, given⟩
  have nodes : (p.1, n :: above) ∈ tree.leafPaths := by rwa [← path]
  rw [← id, path]
  exact ((Element.pathTo?_of_leafPaths lossless.nodup nodes).resolve_left (by simp)).2

/-- Completion at the leaf of a reference says whether only errors may be meant, as the index does,
and gives the namespace that the index gives exactly where `Tree.AgreesAt` says so. -/
theorem within_reference (text : Bytes) (opts : ParseOptions) (steps : List Revision)
    (limited : ∀ step ∈ steps, step.Limited) (serial : Nat) (uri : Bytes) :
    let tree := (Tree.parse text opts).revisions steps
    let table := ofTree serial uri tree
    ∀ r ∈ table.references, ∃ p ∈ tree.leafPaths, r.At p ∧ tree.pathTo? r.node = some p.2 ∧
      (within table false p.2).errorsOnly = r.errorsOnly ∧
      ((within table false p.2).nameSpace = r.nameSpace ↔ tree.AgreesAt p.2) := by
  intro tree table r mem
  have start : (Tree.parse text opts).Lossless := Tree.parseIn_lossless ..
  have lossless : tree.Lossless := (Tree.revisions_lossless start steps).1
  have formed : tree.Formed := Tree.revisions_formed start (Tree.parse_formed text opts) limited
  obtain ⟨p, leaf, here, found, given⟩ := reference_indexed lossless formed mem
  have compared := within_indexed serial uri lossless formed (Tree.descends_of_mem leaf) false
  rw [given, Bool.false_or] at compared
  exact ⟨p, leaf, here, found, compared⟩

/-- Two protocols of different namespaces, in which a record is renamed. -/
theorem within_reference_renamed :
    let text : Bytes := "@namespace(\"x\") protocol P { error A { } } protocol Q { A m(B b) throws A; }"
    let steps : List Revision := [.edit ⟨35, 1, "B"⟩ {}]
    let tree := (Tree.parse text).revisions steps
    let table := ofTree 1 "/a.avdl" tree
    (∀ step ∈ steps, step.Limited) ∧ table.references.length = 3 ∧
      ∀ r ∈ table.references, ∃ p ∈ tree.leafPaths, r.At p ∧ tree.pathTo? r.node = some p.2 ∧
        (within table false p.2).errorsOnly = r.errorsOnly ∧
        ((within table false p.2).nameSpace = r.nameSpace ↔ tree.AgreesAt p.2) := by
  intro text steps tree table
  have limited : ∀ step ∈ steps, step.Limited := by simp [steps, Revision.Limited]
  exact ⟨limited, by decide +kernel, within_reference text {} steps limited 1 "/a.avdl"⟩

/-- In the second protocol of a document, completion goes by the namespace of the first one. -/
theorem within_second_protocol :
    let x : Bytes := "@namespace(\"x\") protocol P { record A { } }"
    let y : Bytes := "@namespace(\"y\") protocol Q { record B { } void m(B b); }"
    let tree := Tree.parse (Bytes.join [x, " ", y])
    let table := ofTree 1 "/a.avdl" tree
    (table.references.map Reference.nameSpace = ["y"]) ∧
      table.references.map (fun r => (tree.pathTo? r.node).map (within table false)) =
        [some ⟨false, "x"⟩] := by
  decide +kernel

end Table

end AvroIdl
