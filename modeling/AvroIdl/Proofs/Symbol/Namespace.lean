import AvroIdl.Proofs.Symbol.Coverage

/-!
# The namespaces of a document

The default namespace of a document changes while the document is indexed: `Node.settle` says what it
is after some statements, and `Table.nameSpace_ofTree` what it is in the end. A type that takes its
namespace from the document takes the one that is the default at that time,
`Table.symbol_of_item`, and a type in a protocol takes that of the protocol,
`Table.symbol_of_statement`.
-/

namespace AvroIdl

namespace Node

/-- The namespace that a protocol gives to what stands in it. -/
def protocolNamespace (n : Node) : Bytes := n.annotatedNamespace?.getD []

/-- The default namespace after some statements: that of the first protocol with a name, else that
of the last protocol, else the one before. -/
def settle (space : Bytes) : List Node → Bytes
  | [] => space
  | n :: rest =>
    if n.kind = .protocolDecl then
      if n.name?.isSome then n.protocolNamespace else settle n.protocolNamespace rest
    else settle space rest

theorem isProtocol_of_symbolKind? {n : Node} {kind : SymbolKind} (h : n.symbolKind? = some kind) :
    kind ≠ .protocol := by
  rintro rfl
  unfold symbolKind? at h
  split at h <;> simp at h

end Node

namespace Tree

/-- The default namespace of the document. -/
def defaultNamespace (t : Tree) : Bytes := Node.settle t.statedNamespace t.root.childNodes

/-- The default namespace of the document when the index comes to one of its statements. -/
def defaultBefore (t : Tree) (n : Node) : Bytes :=
  Node.settle t.statedNamespace (t.root.childNodes.takeWhile fun c => c.id ≠ n.id)

end Tree

namespace Table

/-- Neither the default namespace nor the first protocol changes. -/
structure Steady (t t' : Table) : Prop where
  nameSpace : t'.nameSpace = t.nameSpace
  protocol? : t'.protocol? = t.protocol?

variable {t t' t'' : Table}

theorem Steady.trans (h : t.Steady t') (h' : t'.Steady t'') : t.Steady t'' :=
  ⟨h'.nameSpace.trans h.nameSpace, h'.protocol?.trans h.protocol?⟩

theorem nameSpace_add (t : Table) (s : Symbol) : (t.add s).nameSpace = t.nameSpace := by
  unfold add
  split_ifs <;> rfl

theorem protocol?_add (t : Table) (s : Symbol) :
    (t.add s).protocol? = t.protocol?.or (if s.isProtocol then some s else none) := by
  rw [protocol?, symbols_add, List.find?_append, List.find?_singleton, protocol?]

theorem steady_add {s : Symbol} (type : s.isProtocol = false) : t.Steady (t.add s) :=
  ⟨nameSpace_add t s, by simp [protocol?_add, type]⟩

theorem steady_addStatement (t : Table) (n : Node) (enclosing : Bytes) :
    t.Steady (t.addStatement n enclosing) := by
  unfold addStatement declare
  split_ifs
  · exact ⟨rfl, rfl⟩
  · split
    next kind _ known _ =>
      exact steady_add (decide_eq_false (Node.isProtocol_of_symbolKind? known))
    next => exact ⟨rfl, rfl⟩

theorem steady_foldl {f : Table → Node → Table} (step : ∀ t n, Steady t (f t n)) (ns : List Node)
    (t : Table) : t.Steady (ns.foldl f t) := by
  induction ns generalizing t with
  | nil => exact ⟨rfl, rfl⟩
  | cons n rest ih => exact (step t n).trans (ih _)

/-- Once a protocol with a name has been met, the default namespace is its own. -/
def Settled (t : Table) : Prop := ∀ s, t.protocol? = some s → s.nameSpace = t.nameSpace

/-- What a protocol does to the default namespace. -/
theorem nameSpace_addProtocol (t : Table) (n : Node) :
    (t.addProtocol n).nameSpace =
      if t.protocol?.isNone then n.protocolNamespace else t.nameSpace := by
  rw [addProtocol, (steady_foldl (fun t c => t.steady_addStatement c _) _ _).nameSpace]
  cases n.name? <;> simp only [nameSpace_add] <;> split_ifs <;> rfl

/-- What a protocol does to the first protocol. -/
theorem protocol?_addProtocol (t : Table) (n : Node) :
    ∃ s : Option Symbol, s.isSome = n.name?.isSome ∧ (∀ p ∈ s, p.nameSpace = n.protocolNamespace) ∧
      (t.addProtocol n).protocol? = t.protocol?.or s := by
  have spaced (space : Bytes) :
      (if t.protocol?.isNone then { t with nameSpace := space } else t).protocol? = t.protocol? := by
    split_ifs <;> rfl
  rw [addProtocol, (steady_foldl (fun t c => t.steady_addStatement c _) _ _).protocol?]
  cases n.name? with
  | none => exact ⟨none, rfl, by simp, by simpa using spaced _⟩
  | some name =>
    rw [protocol?_add, spaced]
    refine ⟨some _, rfl, fun p eq => ?_, rfl⟩
    obtain rfl := Option.some.inj eq
    rfl

theorem settled_addItem (h : t.Settled) (n : Node) : (t.addItem n).Settled := by
  unfold addItem
  split_ifs
  · intro s found
    obtain ⟨own, -, space, first⟩ := protocol?_addProtocol t n
    rw [first] at found
    rw [nameSpace_addProtocol]
    cases known : t.protocol? with
    | some q =>
      rw [known, Option.some_or] at found
      simp [h s (known.trans found)]
    | none =>
      rw [known, Option.none_or] at found
      simpa using space s found
  · have steady := t.steady_addStatement n t.nameSpace
    intro s found
    rw [steady.protocol?] at found
    rw [steady.nameSpace, h s found]

/-- The default namespace after some statements. -/
theorem nameSpace_items (ns : List Node) (t : Table) :
    (ns.foldl addItem t).nameSpace =
      if t.protocol?.isNone then Node.settle t.nameSpace ns else t.nameSpace := by
  induction ns generalizing t with
  | nil => simp [Node.settle]
  | cons n rest ih =>
    rw [List.foldl_cons, ih, Node.settle, addItem]
    by_cases protocol : n.kind = .protocolDecl
    · rw [if_pos protocol, if_pos protocol, nameSpace_addProtocol]
      obtain ⟨own, named, -, first⟩ := protocol?_addProtocol t n
      rw [first]
      cases known : t.protocol? with
      | some q => simp
      | none => cases own <;> simp [← named]
    · have steady := t.steady_addStatement n t.nameSpace
      rw [if_neg protocol, if_neg protocol, steady.nameSpace, steady.protocol?]

variable {tree : Tree} {serial : Nat} {uri : Bytes}

/-- The default namespace of a document. -/
theorem nameSpace_ofTree : (ofTree serial uri tree).nameSpace = tree.defaultNamespace := by
  have items := nameSpace_items tree.root.childNodes (empty serial uri tree)
  exact items

theorem settled_ofTree : (ofTree serial uri tree).Settled := by
  have items (ns : List Node) (t : Table) (h : t.Settled) : (ns.foldl addItem t).Settled := by
    induction ns generalizing t with
    | nil => exact h
    | cons n rest ih => exact ih _ (settled_addItem h n)
  exact items tree.root.childNodes (empty serial uri tree) (by intro s found; contradiction)

/-! ## The symbols of declarations -/

/-- A symbol that is there after one of some steps is there after all of them. -/
theorem mem_foldl {f : Table → Node → Table} {below : Node → List Node} {before after : List Node}
    {c : Node} (step : ∀ t : Table, ∀ a ∈ after, t.Grows (f t a) (below a)) {s : Symbol}
    (mem : s ∈ (f (before.foldl f t) c).symbols) :
    s ∈ ((before ++ c :: after).foldl f t).symbols := by
  rw [List.foldl_append, List.foldl_cons]
  obtain ⟨ss, added, -⟩ := grows_foldl step (f (before.foldl f t) c)
  rw [added]
  exact List.mem_append_left _ mem

/-- A symbol that is there after one statement of a document is there in the end. -/
theorem mem_items (formed : tree.Formed) {before after : List Node} {c : Node}
    (split : tree.root.childNodes = before ++ c :: after) {s : Symbol}
    (mem : s ∈ ((before.foldl addItem (empty serial uri tree)).addItem c).symbols) :
    s ∈ (ofTree serial uri tree).symbols := by
  have step (t : Table) : ∀ a ∈ after, t.Grows (t.addItem a) (a.element.nodesFrom a.start) := by
    intro a later
    refine grows_item formed ?_
    rw [split]
    exact List.mem_append_right _ (.tail _ later)
  rw [symbols_ofTree, split]
  exact mem_foldl step mem

/-- A named declaration of a type gets its namespace from its own name, its annotation, or from
around. -/
theorem mem_addStatement (t : Table) {n : Node} {kind : SymbolKind} (known : n.symbolKind? = some kind)
    (named : n.name?.isSome = true) (enclosing : Bytes) :
    ∃ s ∈ (t.addStatement n enclosing).symbols,
      s.decl = some n.id ∧ s.nameSpace = n.declaredNamespace enclosing := by
  obtain ⟨name, found⟩ := Option.isSome_iff_exists.mp named
  have other : n.kind ≠ .importStmt := by
    rw [Node.kind_of_symbolKind? known]
    cases kind <;> simp [SymbolKind.declaration]
  rw [addStatement, if_neg other, declare, known, found]
  dsimp only
  rw [symbols_add]
  exact ⟨_, List.mem_append_right _ List.mem_cons_self, rfl, rfl⟩

/-- The children of a node have different numbers. -/
theorem nodup_childNodes (lossless : tree.Lossless) : (tree.root.childNodes.map Node.id).Nodup := by
  have listed := lossless.nodup
  rw [← Element.map_id_nodesFrom _ 0,
    show tree.element.nodesFrom 0 = tree.root :: Element.nodesAmong 0 tree.children from rfl,
    show Element.nodesAmong 0 tree.children = _ from Element.nodesAmong_eq tree.root] at listed
  refine (List.Sublist.map Node.id ?_).nodup listed
  refine .cons _ ?_
  generalize tree.root.childNodes = ns
  induction ns with
  | nil => exact .slnil
  | cons n rest ih => exact .cons_cons n (ih.trans (List.sublist_append_right _ _))

/-- A declaration in the document itself takes the namespace that is the default when it is
indexed. -/
theorem symbol_of_item (lossless : tree.Lossless) (formed : tree.Formed) {c : Node}
    (mem : c ∈ tree.root.childNodes) {kind : SymbolKind} (known : c.symbolKind? = some kind)
    (named : c.name?.isSome = true) :
    ∃ s ∈ (ofTree serial uri tree).symbols,
      s.decl = some c.id ∧ s.nameSpace = c.declaredNamespace (tree.defaultBefore c) := by
  obtain ⟨before, after, split⟩ := List.append_of_mem mem
  have ids := nodup_childNodes lossless
  have first : tree.root.childNodes.takeWhile (fun n => n.id ≠ c.id) = before := by
    rw [split, List.map_append, List.map_cons, List.nodup_append] at ids
    have others : ∀ n ∈ before, n.id ≠ c.id := fun n here =>
      ids.2.2 n.id (List.mem_map_of_mem here) c.id List.mem_cons_self
    rw [split, List.takeWhile_append_of_pos (by simpa using others)]
    simp
  have other : c.kind ≠ .protocolDecl := by
    rw [Node.kind_of_symbolKind? known]
    have := Node.isProtocol_of_symbolKind? known
    cases kind <;> simp_all [SymbolKind.declaration]
  obtain ⟨s, declared, decl, space⟩ := mem_addStatement (before.foldl addItem (empty serial uri tree))
    known named (before.foldl addItem (empty serial uri tree)).nameSpace
  refine ⟨s, ?_, decl, ?_⟩
  · refine mem_items formed split ?_
    rwa [addItem, if_neg other]
  · rw [space, nameSpace_items, Tree.defaultBefore, first]
    rfl

/-- A declaration in a protocol takes the namespace of the protocol. -/
theorem symbol_of_statement (formed : tree.Formed) {p c : Node}
    (item : p ∈ tree.root.childNodes) (protocol : p.kind = .protocolDecl) (mem : c ∈ p.childNodes)
    {kind : SymbolKind} (known : c.symbolKind? = some kind) (named : c.name?.isSome = true) :
    ∃ s ∈ (ofTree serial uri tree).symbols,
      s.decl = some c.id ∧ s.nameSpace = c.declaredNamespace p.protocolNamespace := by
  obtain ⟨before, after, split⟩ := List.append_of_mem item
  obtain ⟨front, back, inside⟩ := List.append_of_mem mem
  have whole : p.element.All Element.Formed :=
    Element.allOf_iff.mp formed.nodes.2 _ (Node.element_mem item)
  have declared (t : Table) : ∃ s ∈ (t.addProtocol p).symbols,
      s.decl = some c.id ∧ s.nameSpace = c.declaredNamespace p.protocolNamespace := by
    have step (t : Table) : ∀ a ∈ back,
        t.Grows (t.addStatement a p.protocolNamespace) (a.element.nodesFrom a.start) := by
      intro a later
      refine grows_statement whole protocol ?_ _
      rw [inside]
      exact List.mem_append_right _ (.tail _ later)
    unfold addProtocol
    rw [inside]
    obtain ⟨s, added, known⟩ := mem_addStatement _ known named p.protocolNamespace
    exact ⟨s, mem_foldl step added, known⟩
  obtain ⟨s, added, known⟩ := declared (before.foldl addItem (empty serial uri tree))
  refine ⟨s, mem_items formed split ?_, known⟩
  rwa [addItem, if_pos protocol]

end Table

end AvroIdl
