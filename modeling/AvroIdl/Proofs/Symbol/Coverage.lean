import AvroIdl.Proofs.Symbol.Place
import AvroIdl.Proofs.Tree.Formed

/-!
# Nothing escapes the index

The index looks for declarations in two levels of a tree only, and does not look for references
everywhere. The form of trees makes up for it: `Table.covers_revisions` says that the symbols of a
document are its named declarations, wherever they stand, and that its references are all the nodes
that refer to types, both in the order of the text.

`Element.nodesFrom` lists the nodes of a tree. Kinds that are closed under `NodeKind.holds` are
never left on the way down, `Element.kinds_below`, so that there is nothing to find in the parts of
a tree that the index passes by: `Element.typeRefs_eq_nil` and `Element.declarations_eq_nil`.
-/

namespace AvroIdl

namespace Element

mutual

/-- The nodes of an element that starts at an offset, each before those below it. -/
def nodesFrom (start : Nat) : Element → List Node
  | leaf _ => []
  | node l children => ⟨start, l, children⟩ :: nodesAmong start children

/-- The nodes of elements that follow each other. -/
def nodesAmong (start : Nat) : List Element → List Node
  | [] => []
  | e :: rest => e.nodesFrom start ++ nodesAmong (start + e.width) rest

end

mutual

theorem map_id_nodesFrom (e : Element) (start : Nat) : (e.nodesFrom start).map Node.id = e.ids := by
  cases e with
  | leaf t => rfl
  | node l children => rw [nodesFrom, List.map_cons, map_id_nodesAmong, ids, Node.id]

theorem map_id_nodesAmong (es : List Element) (start : Nat) :
    (nodesAmong start es).map Node.id = idsOf es := by
  cases es with
  | nil => rfl
  | cons e rest =>
    rw [nodesAmong, List.map_append, map_id_nodesFrom, map_id_nodesAmong, idsOf]

end

/-- The nodes below a node are its children and what is below them. -/
theorem nodesAmong_eq (n : Node) :
    nodesAmong n.start n.children = n.childNodes.flatMap fun c => c.element.nodesFrom c.start := by
  obtain ⟨start, l, children⟩ := n
  simp only [Node.childNodes, Node.parts]
  induction children generalizing start with
  | nil => rfl
  | cons e rest ih =>
    cases e with
    | leaf t => simpa [nodesAmong, nodesFrom, placed, width] using ih _
    | node l' inside => simpa [nodesAmong, nodesFrom, placed, width, Node.element] using ih _

mutual

/-- Kinds that are closed under what can stand below them are never left on the way down. -/
theorem kinds_below {K : NodeKind → Prop} (closed : ∀ p c, K p → p.holds c = true → K c)
    {e : Element} (h : e.All Formed) (top : ∀ l children, e = node l children → K l.kind)
    (start : Nat) : ∀ n ∈ e.nodesFrom start, K n.kind := by
  cases e with
  | leaf t => simp [nodesFrom]
  | node l children =>
    intro n mem
    rcases List.mem_cons.mp mem with rfl | below
    · exact top l children rfl
    · refine kinds_among closed h.2 (fun l' inside child => ?_) start n below
      exact closed l.kind l'.kind (top l children rfl) (h.1.sited l' inside child)

theorem kinds_among {K : NodeKind → Prop} (closed : ∀ p c, K p → p.holds c = true → K c)
    {es : List Element} (h : AllOf Formed es) (top : ∀ l children, node l children ∈ es → K l.kind)
    (start : Nat) : ∀ n ∈ nodesAmong start es, K n.kind := by
  cases es with
  | nil => simp [nodesAmong]
  | cons e rest =>
    intro n mem
    rcases List.mem_append.mp mem with first | later
    · refine kinds_below closed h.1 (fun l children eq => ?_) start n first
      exact top l children (by rw [eq]; exact List.mem_cons_self)
    · exact kinds_among closed h.2 (fun l children child => top l children (.tail _ child)) _ n later

end

end Element

namespace NodeKind

/-- The kinds of errors, annotations and JSON values. -/
def isPlain : NodeKind → Bool
  | error | annotationDecl | jsonObject | jsonMember | jsonArray | jsonLiteral => true
  | _ => false

theorem isBare_of_isPlain {k : NodeKind} (h : k.isPlain = true) : k.isBare = true := by
  cases k <;> simp_all [isPlain, isBare]

theorem isPlain_of_holds {p c : NodeKind} (bare : p.isBare = true) (h : p.holds c = true) :
    c.isPlain = true := by
  cases c <;> simp_all [holds, isPlain] <;> cases p <;> simp_all [isBare]

/-- Only the document and protocols hold declarations. -/
theorem not_declares_of_holds {p c : NodeKind} (document : p ≠ document)
    (protocol : p ≠ protocolDecl) (h : p.holds c = true) : c ≠ .document ∧ c.declares = false := by
  cases c <;> simp_all [holds, declares]

end NodeKind

namespace Element

/-- Below an annotation, a JSON value, an error or a reference there are only errors, annotations and
JSON values. -/
theorem isPlain_below {l : Label} {children : List Element} (h : (node l children).All Formed)
    (bare : l.kind.isBare = true) (start : Nat) :
    ∀ n ∈ nodesAmong start children, n.kind.isPlain = true :=
  kinds_among (K := fun k => k.isPlain = true)
    (fun _ _ plain holds => NodeKind.isPlain_of_holds (NodeKind.isBare_of_isPlain plain) holds) h.2
    (fun l' inside child => NodeKind.isPlain_of_holds bare (h.1.sited l' inside child)) start

/-- There is no reference below an annotation, a JSON value, an error or a reference. -/
theorem typeRefs_eq_nil {l : Label} {children : List Element} (h : (node l children).All Formed)
    (bare : l.kind.isBare = true) (start : Nat) :
    (nodesAmong start children).filter (fun n => n.kind = .typeRef) = [] := by
  rw [List.filter_eq_nil_iff]
  intro n mem refers
  have := isPlain_below h bare start n mem
  rw [of_decide_eq_true refers] at this
  contradiction

/-- There is no declaration below a node that is neither the document nor a protocol. -/
theorem declarations_eq_nil {l : Label} {children : List Element} (h : (node l children).All Formed)
    (document : l.kind ≠ .document) (protocol : l.kind ≠ .protocolDecl) (start : Nat) :
    ∀ n ∈ nodesAmong start children, n.kind.declares = false := by
  intro n mem
  refine (kinds_among (K := fun k => k ≠ .document ∧ k.declares = false) ?_ h.2 ?_ start n mem).2
  · rintro p c ⟨other, plain⟩ holds
    refine NodeKind.not_declares_of_holds other ?_ holds
    rintro rfl
    contradiction
  · intro l' inside child
    exact NodeKind.not_declares_of_holds document protocol (h.1.sited l' inside child)

end Element

/-! ## References -/

/-- A reference is that of a node. -/
structure Reference.Of (r : Reference) (n : Node) : Prop where
  node : r.node = n.id
  name : ∃ l, n.name? = some l ∧ r.name = identText l.text ∧ r.span = l.span ∧
    r.nameSpan = l.simpleNameSpan

namespace Element

theorem leaf_placed (start : Nat) {i : Nat} {es : List Element} {t : Token}
    (h : es[i]? = some (.leaf t)) : ∃ l, (placed start es)[i]? = some (.leaf l) := by
  induction es generalizing start i with
  | nil => simp at h
  | cons e rest ih =>
    cases i with
    | zero =>
      obtain rfl : e = .leaf t := by simpa using h
      exact ⟨⟨start, t⟩, rfl⟩
    | succ i =>
      rw [List.getElem?_cons_succ] at h
      cases e with
      | leaf t' => exact ih _ h
      | node l children => exact ih _ h

/-- A node that refers to a type is named by a leaf. -/
theorem Formed.name? {l : Label} {children : List Element} (h : Formed l children)
    (refers : l.kind = .typeRef) (start : Nat) :
    ∃ name, Node.name? ⟨start, l, children⟩ = some name := by
  obtain ⟨i, index⟩ := Option.isSome_iff_exists.mp (h.titled refers)
  obtain ⟨t, here, -⟩ := h.named i index
  obtain ⟨name, placed⟩ := leaf_placed start here
  refine ⟨name, ?_⟩
  rw [Node.name?, index, Option.bind_some, Node.parts, placed]

mutual

/-- The references of an element are those of its nodes that refer to types. -/
theorem references_of {e : Element} (h : e.All Formed) (start : Nat) (space : Bytes)
    (errorsOnly : Bool) :
    List.Forall₂ Reference.Of (e.references start space errorsOnly)
      ((e.nodesFrom start).filter fun n => n.kind = .typeRef) := by
  cases e with
  | leaf t => exact .nil
  | node l children =>
    have among (other : l.kind ≠ .typeRef) (space : Bytes) (errorsOnly : Bool) :
        List.Forall₂ Reference.Of (referencesAmong start space errorsOnly children)
          ((nodesFrom start (node l children)).filter fun n => n.kind = .typeRef) := by
      rw [nodesFrom, List.filter_cons_of_neg (by simp [Node.kind, other])]
      exact referencesAmong_of h.2 start space errorsOnly
    have nothing (other : l.kind ≠ .typeRef) (bare : l.kind.isBare = true) :
        List.Forall₂ Reference.Of []
          ((nodesFrom start (node l children)).filter fun n => n.kind = .typeRef) := by
      rw [nodesFrom, List.filter_cons_of_neg (by simp [Node.kind, other]),
        typeRefs_eq_nil h bare]
      exact .nil
    rw [references]
    split
    next kind => exact among (by simp [kind]) _ _
    next kind => exact among (by simp [kind]) _ _
    next kind => exact among (by simp [kind]) _ _
    next kind => exact among (by simp [kind]) _ _
    next kind =>
      obtain ⟨name, found⟩ := h.1.name? kind start
      rw [nodesFrom, List.filter_cons_of_pos (by simp [Node.kind, kind]),
        typeRefs_eq_nil h (by rw [kind]; rfl), found]
      exact .cons ⟨rfl, name, found, rfl, rfl, rfl⟩ .nil
    next kind => exact nothing (by simp [kind]) (by rw [kind]; rfl)
    next kind => exact nothing (by simp [kind]) (by rw [kind]; rfl)
    next kind => exact nothing (by simp [kind]) (by rw [kind]; rfl)
    next kind => exact nothing (by simp [kind]) (by rw [kind]; rfl)
    next other _ _ _ _ => exact among other _ _

theorem referencesAmong_of {es : List Element} (h : AllOf Formed es) (start : Nat) (space : Bytes)
    (errorsOnly : Bool) :
    List.Forall₂ Reference.Of (referencesAmong start space errorsOnly es)
      ((nodesAmong start es).filter fun n => n.kind = .typeRef) := by
  cases es with
  | nil => exact .nil
  | cons e rest =>
    rw [referencesAmong, nodesAmong, List.filter_append]
    exact List.rel_append (references_of h.1 start space errorsOnly)
      (referencesAmong_of h.2 _ space errorsOnly)

end

end Element

/-! ## Symbols -/

/-- The kind of the nodes that declare symbols of a kind. -/
def SymbolKind.declaration : SymbolKind → NodeKind
  | record => .recordDecl
  | error => .errorDecl
  | enum => .enumDecl
  | fixed => .fixedDecl
  | protocol => .protocolDecl

/-- A symbol is what a node declares. -/
structure Symbol.Of (s : Symbol) (n : Node) : Prop where
  decl : s.decl = some n.id
  kind : n.kind = s.kind.declaration
  span : s.span = n.span
  name : ∃ l, n.name? = some l ∧ s.simpleName = Name.simple (identText l.text) ∧
    s.nameSpan = l.simpleNameSpan

namespace Node

/-- Whether a node declares something that has a name. -/
def isDeclaration (n : Node) : Bool := n.kind.declares && n.name?.isSome

theorem kind_of_symbolKind? {n : Node} {kind : SymbolKind} (h : n.symbolKind? = some kind) :
    n.kind = kind.declaration := by
  unfold symbolKind? at h
  split at h <;> simp_all [SymbolKind.declaration] <;> subst h <;> rfl

theorem symbolKind?_eq_none {n : Node} (h : n.symbolKind? = none) (protocol : n.kind ≠ .protocolDecl) :
    n.kind.declares = false := by
  unfold symbolKind? at h
  cases kind : n.kind <;> simp_all [NodeKind.declares]

theorem element_mem {n c : Node} (h : c ∈ n.childNodes) : c.element ∈ n.children := by
  obtain ⟨i, here⟩ := List.getElem?_of_mem (mem_childNodes.mp h)
  exact List.mem_of_getElem? (getElem?_of_placed here)

end Node

/-- The namespace that the document itself states. -/
def Tree.statedNamespace (t : Tree) : Bytes :=
  ((t.root.childrenOf .namespaceDecl).findSome? fun n => n.name?.map fun l => identText l.text).getD []

namespace Table

/-- The symbols that are added to a table are those that some nodes declare. -/
def Grows (t t' : Table) (ns : List Node) : Prop :=
  ∃ ss, t'.symbols = t.symbols ++ ss ∧ List.Forall₂ Symbol.Of ss (ns.filter Node.isDeclaration)

variable {t t' t'' : Table} {ns ms : List Node}

theorem grows_of_eq (same : t'.symbols = t.symbols) (none : ∀ n ∈ ns, n.isDeclaration = false) :
    t.Grows t' ns := by
  refine ⟨[], by rw [same, List.append_nil], ?_⟩
  rw [List.filter_eq_nil_iff.mpr (by simpa using none)]
  exact .nil

theorem Grows.trans (h : t.Grows t' ns) (h' : t'.Grows t'' ms) : t.Grows t'' (ns ++ ms) := by
  obtain ⟨ss, added, of⟩ := h
  obtain ⟨ss', added', of'⟩ := h'
  refine ⟨ss ++ ss', by rw [added', added, List.append_assoc], ?_⟩
  rw [List.filter_append]
  exact List.rel_append of of'

theorem grows_foldl {α : Type} {f : Table → α → Table} {below : α → List Node} {as : List α}
    (step : ∀ t : Table, ∀ a ∈ as, t.Grows (f t a) (below a)) (t : Table) :
    t.Grows (as.foldl f t) (as.flatMap below) := by
  induction as generalizing t with
  | nil => exact grows_of_eq rfl (by simp)
  | cons a rest ih =>
    exact (step t a List.mem_cons_self).trans (ih (fun t b mem => step t b (.tail _ mem)) _)

theorem grows_add {n : Node} {s : Symbol} (of : s.Of n) : t.Grows (t.add s) [n] := by
  refine ⟨[s], symbols_add t s, ?_⟩
  obtain ⟨l, named, -⟩ := of.name
  have declares : n.kind.declares = true := by
    rw [of.kind]
    cases s.kind <;> rfl
  rw [List.filter_cons_of_pos (by simp [Node.isDeclaration, declares, named])]
  exact .cons of .nil

theorem grows_declare {n : Node} (protocol : n.kind ≠ .protocolDecl) (enclosing : Bytes) :
    t.Grows (t.declare n enclosing) [n] := by
  unfold Table.declare
  split
  next kind name known found =>
    refine grows_add ⟨rfl, Node.kind_of_symbolKind? known, rfl, name, found, ?_, rfl⟩
    rw [Symbol.simpleName, Node.declaredName, Name.simple_qualify, Node.nameText_eq found]
  next other =>
    refine grows_of_eq rfl fun m mem => ?_
    obtain rfl := List.mem_singleton.mp mem
    cases known : m.symbolKind? with
    | none => simp [Node.isDeclaration, Node.symbolKind?_eq_none known protocol]
    | some kind =>
      cases found : m.name? with
      | none => simp [Node.isDeclaration, found]
      | some name => exact absurd found (other kind name known)

/-- A statement adds all that is declared in it. -/
theorem grows_addStatement {n : Node} (formed : n.element.All Element.Formed)
    (document : n.kind ≠ .document) (protocol : n.kind ≠ .protocolDecl) (enclosing : Bytes) :
    t.Grows (t.addStatement n enclosing) (n.element.nodesFrom n.start) := by
  have below : ∀ m ∈ Element.nodesAmong n.start n.children, m.isDeclaration = false := by
    intro m mem
    simp [Node.isDeclaration, Element.declarations_eq_nil formed document protocol n.start m mem]
  suffices here : t.Grows (t.addStatement n enclosing) [n] from here.trans (grows_of_eq rfl below)
  unfold Table.addStatement
  split_ifs with imports
  · refine grows_of_eq rfl fun m mem => ?_
    obtain rfl := List.mem_singleton.mp mem
    simp [Node.isDeclaration, imports, NodeKind.declares]
  · exact grows_declare protocol enclosing

/-- What stands in a protocol adds all that is declared in it. -/
theorem grows_statement {n c : Node} (formed : n.element.All Element.Formed)
    (protocol : n.kind = .protocolDecl) (mem : c ∈ n.childNodes) (enclosing : Bytes) :
    t.Grows (t.addStatement c enclosing) (c.element.nodesFrom c.start) := by
  have child := Node.element_mem mem
  have held : NodeKind.protocolDecl.holds c.kind = true := by
    rw [← protocol]
    exact formed.1.sited c.label c.children child
  refine grows_addStatement (Element.allOf_iff.mp formed.2 _ child) ?_ ?_ _
  all_goals
    intro kind
    rw [kind] at held
    contradiction

/-- A protocol adds itself and all that is declared in it. -/
theorem grows_addProtocol {n : Node} (formed : n.element.All Element.Formed)
    (protocol : n.kind = .protocolDecl) : t.Grows (t.addProtocol n) (n.element.nodesFrom n.start) := by
  have spaced (space : Bytes) :
      (if t.protocol?.isNone then { t with nameSpace := space } else t).symbols = t.symbols := by
    split_ifs <;> rfl
  have split : n.element.nodesFrom n.start =
      [n] ++ n.childNodes.flatMap fun c => c.element.nodesFrom c.start := by
    rw [← Element.nodesAmong_eq]
    rfl
  rw [split]
  unfold Table.addProtocol
  refine Grows.trans ?_ (grows_foldl (fun t c mem => ?_) _)
  · cases found : n.name? with
    | none =>
      refine grows_of_eq (spaced _) fun m mem => ?_
      obtain rfl := List.mem_singleton.mp mem
      simp [Node.isDeclaration, found]
    | some name =>
      have before (space : Bytes) :
          t.Grows (if t.protocol?.isNone then { t with nameSpace := space } else t) [] :=
        grows_of_eq (spaced space) (by simp)
      refine (before _).trans (grows_add ⟨rfl, protocol, rfl, name, found, ?_, rfl⟩)
      rw [Symbol.simpleName, Name.simple_qualify, Node.nameText_eq found]
  · exact grows_statement formed protocol mem _

theorem grows_addItem {n : Node} (formed : n.element.All Element.Formed)
    (document : n.kind ≠ .document) : t.Grows (t.addItem n) (n.element.nodesFrom n.start) := by
  unfold Table.addItem
  split_ifs with protocol
  · exact grows_addProtocol formed protocol
  · exact grows_addStatement formed document protocol _

/-- What stands in the document adds all that is declared in it. -/
theorem grows_item {tree : Tree} (formed : tree.Formed) {c : Node} (mem : c ∈ tree.root.childNodes) :
    t.Grows (t.addItem c) (c.element.nodesFrom c.start) := by
  have child := Node.element_mem mem
  refine grows_addItem (Element.allOf_iff.mp formed.nodes.2 _ child) fun kind => ?_
  have held := formed.nodes.1.sited c.label c.children child
  rw [show c.label.kind = .document from kind] at held
  contradiction

/-- The table of a document before any of its statements is indexed. -/
def empty (serial : Nat) (uri : Bytes) (tree : Tree) : Table :=
  { serial, uri, generation := tree.generation, nameSpace := tree.statedNamespace, tree := some tree }

theorem symbols_ofTree (serial : Nat) (uri : Bytes) (tree : Tree) :
    (ofTree serial uri tree).symbols =
      (tree.root.childNodes.foldl addItem (empty serial uri tree)).symbols := rfl

/-- The symbols of a document are what its nodes declare. -/
theorem symbols_of {tree : Tree} (formed : tree.Formed) (serial : Nat) (uri : Bytes) :
    List.Forall₂ Symbol.Of (ofTree serial uri tree).symbols
      ((tree.element.nodesFrom 0).filter Node.isDeclaration) := by
  have split : tree.element.nodesFrom 0 =
      tree.root :: tree.root.childNodes.flatMap fun c => c.element.nodesFrom c.start := by
    rw [← Element.nodesAmong_eq]
    rfl
  have root : tree.root.isDeclaration = false := by
    rw [Node.isDeclaration, show tree.root.kind = .document from formed.root]
    rfl
  have step (t : Table) : ∀ c ∈ tree.root.childNodes,
      t.Grows (t.addItem c) (c.element.nodesFrom c.start) := fun c mem => grows_item formed mem
  obtain ⟨ss, added, of⟩ := grows_foldl step (empty serial uri tree)
  rw [split, List.filter_cons_of_neg (by simp [root]), symbols_ofTree, added]
  exact of

end Table

/-! ## Names in the text -/

namespace Tree

variable {t : Tree}

/-- The text of a tree that names anything is not too long, and its nodes are as wide as they
should. -/
theorem measured_of_named (lossless : t.Lossless) (formed : t.Formed) {p : Leaf × List Node}
    (mem : p ∈ t.leafPaths) {n : Node} {above : List Node} (path : p.2 = n :: above)
    (named : n.name? = some p.1) :
    t.text.length ≤ maxOffset ∧ t.element.All Element.Measured := by
  have short : t.text.length ≤ maxOffset := by
    refine formed.short.resolve_right fun unnamed => ?_
    obtain ⟨i, index, -⟩ := Node.name?_eq_some named
    rcases Element.all_of_leafPaths unnamed mem n (by simp [path]) with none | none
    · contradiction
    · rw [none] at index
      contradiction
  refine ⟨short, lossless.measured.resolve_right fun long => ?_⟩
  exact absurd long.1 (Nat.not_lt.mpr short)

/-- A leaf that names a type or a declaration is a name in the text. -/
theorem name_in_text (lossless : t.Lossless) (formed : t.Formed) {p : Leaf × List Node}
    (mem : p ∈ t.leafPaths) {n : Node} {above : List Node} (path : p.2 = n :: above)
    (named : n.name? = some p.1) (kind : n.kind = .typeRef ∨ n.kind.declares = true) :
    p.1.token.Named ∧ p.1.start + p.1.text.length ≤ maxOffset ∧
      t.text.slice p.1.simpleNameSpan.start p.1.simpleNameSpan.stop =
        Name.simple (identText p.1.text) := by
  obtain ⟨short, measured⟩ := measured_of_named lossless formed mem path named
  have leaf : p.1 ∈ Leaf.located 0 t.element.tokens := by
    rw [← Element.leafPaths_eq measured 0 []]
    exact List.mem_map_of_mem mem
  have text : Token.textOf t.element.tokens = t.text := by
    rw [← Element.text_eq_tokens, lossless.text]
  obtain ⟨before, after, all, place⟩ := Leaf.split_of_mem leaf
  have nodes := formed.nodes.imp fun _ _ here _ => here.named
  have name := isName_of_named nodes mem path named kind
  have word := formed.words p.1.token (by rw [all]; simp) name
  refine ⟨word, ?_, ?_⟩
  · have size := congrArg (fun ts => (Token.textOf ts).length) all
    simp only [text, Token.textOf_append, Token.textOf_cons, List.length_append] at size
    rw [Leaf.text]
    omega
  · rw [← text] at short ⊢
    exact Leaf.slice_simpleName leaf short word

end Tree

theorem Token.Named.text_ne_nil {t : Token} (h : t.Named) : t.text ≠ [] := by
  obtain ⟨front, back, split⟩ := h.split
  intro empty
  have spelled := split.text
  rw [empty, eq_comm, List.append_eq_nil_iff, List.append_eq_nil_iff] at spelled
  exact split.some (by rw [empty]; exact spelled.1.2)

namespace Table

/-- A table lists all that a tree declares and refers to, in the order of the text, and says where
the names stand. -/
structure Covers (table : Table) (tree : Tree) : Prop where
  /-- Nodes are told apart by their numbers. -/
  once : ((tree.element.nodesFrom 0).map Node.id).Nodup
  symbols : List.Forall₂ Symbol.Of table.symbols
    ((tree.element.nodesFrom 0).filter Node.isDeclaration)
  references : List.Forall₂ Reference.Of table.references
    ((tree.element.nodesFrom 0).filter fun n => n.kind = .typeRef)
  nonempty : ∀ r ∈ table.references, r.span.start < r.span.stop
  apart : table.references.Pairwise fun a b => a.span.stop ≤ b.span.start
  symbolText : ∀ s ∈ table.symbols,
    tree.text.slice s.nameSpan.start s.nameSpan.stop = s.simpleName
  referenceText : ∀ r ∈ table.references,
    tree.text.slice r.nameSpan.start r.nameSpan.stop = Name.simple r.name

variable {tree : Tree}

theorem symbolText_of (lossless : tree.Lossless) (formed : tree.Formed) {serial : Nat} {uri : Bytes}
    {s : Symbol} (mem : s ∈ (ofTree serial uri tree).symbols) :
    tree.text.slice s.nameSpan.start s.nameSpan.stop = s.simpleName := by
  obtain ⟨p, leaf, here⟩ := symbols_at serial uri tree s mem
  obtain ⟨n, above, path, declares, named, -⟩ := here.declared
  rw [here.nameSpan, here.simpleName]
  exact (tree.name_in_text lossless formed leaf path named (.inr declares)).2.2

/-- What is known of the leaf of a reference. -/
theorem reference_in_text (lossless : tree.Lossless) (formed : tree.Formed) {r : Reference}
    {p : Leaf × List Node} (mem : p ∈ tree.leafPaths) (here : r.At p) :
    r.span.start < r.span.stop ∧ r.span.stop = p.1.start + p.1.text.length ∧
      tree.text.slice r.nameSpan.start r.nameSpan.stop = Name.simple r.name := by
  obtain ⟨n, above, path, refers, named, -⟩ := here.written
  obtain ⟨word, small, text⟩ := tree.name_in_text lossless formed mem path named (.inl refers)
  have stop : r.span.stop = p.1.start + p.1.text.length := by
    rw [here.span, Span.stop_eq small]
    rfl
  refine ⟨?_, stop, by rw [here.nameSpan, here.name, text]⟩
  have := List.length_pos_of_ne_nil word.text_ne_nil
  rw [stop, here.span]
  exact Nat.lt_add_of_pos_right this

/-- References at leaves that follow each other do not overlap. -/
theorem apart_of_ordered (lossless : tree.Lossless) (formed : tree.Formed) {rs : List Reference}
    {ps : List (Leaf × List Node)} (written : List.Forall₂ Reference.At rs ps)
    (sub : ps ⊆ tree.leafPaths)
    (ordered : ps.Pairwise fun p q => p.1.start + p.1.text.length ≤ q.1.start) :
    rs.Pairwise fun a b => a.span.stop ≤ b.span.start := by
  induction written with
  | nil => exact .nil
  | cons first rest ih =>
    rw [List.pairwise_cons] at ordered ⊢
    refine ⟨fun b mem => ?_, ih (fun q later => sub (.tail _ later)) ordered.2⟩
    obtain ⟨q, later, here⟩ := exists_of_forall₂ rest mem
    rw [(reference_in_text lossless formed (sub List.mem_cons_self) first).2.1, here.span]
    exact ordered.1 q later

theorem apart_of (lossless : tree.Lossless) (formed : tree.Formed) (serial : Nat) (uri : Bytes) :
    (ofTree serial uri tree).references.Pairwise fun a b => a.span.stop ≤ b.span.start := by
  obtain ⟨ps, sublist, written⟩ := references_at serial uri tree
  cases ps with
  | nil =>
    rw [List.forall₂_nil_right_iff.mp written]
    exact .nil
  | cons p rest =>
    -- Where there is a reference, leaves have places.
    obtain ⟨r, _, first, -, -⟩ := List.forall₂_cons_right_iff.mp written
    obtain ⟨n, above, path, -, named, -⟩ := first.written
    have measured := (tree.measured_of_named lossless formed (sublist.subset List.mem_cons_self) path
      named).2
    have ordered := Leaf.pairwise_located 0 tree.element.tokens
    rw [← Element.leafPaths_eq measured 0 [], List.pairwise_map] at ordered
    exact apart_of_ordered lossless formed written sublist.subset (ordered.sublist sublist)

/-- Whatever the text of a document is and however it was edited, its table lists every declaration
that has a name and every use of a type. -/
theorem covers_revisions (text : Bytes) (opts : ParseOptions) (steps : List Revision)
    (limited : ∀ step ∈ steps, step.Limited) (serial : Nat) (uri : Bytes) :
    (ofTree serial uri ((Tree.parse text opts).revisions steps)).Covers
      ((Tree.parse text opts).revisions steps) := by
  have start : (Tree.parse text opts).Lossless := Tree.parseIn_lossless ..
  have lossless := (Tree.revisions_lossless start steps).1
  have formed := Tree.revisions_formed start (Tree.parse_formed text opts) limited
  generalize (Tree.parse text opts).revisions steps = tree at lossless formed
  have inText {r : Reference} (mem : r ∈ (ofTree serial uri tree).references) :
      r.span.start < r.span.stop ∧
        tree.text.slice r.nameSpan.start r.nameSpan.stop = Name.simple r.name := by
    obtain ⟨ps, sublist, written⟩ := references_at serial uri tree
    obtain ⟨p, leaf, here⟩ := exists_of_forall₂ written mem
    have known := reference_in_text lossless formed (sublist.subset leaf) here
    exact ⟨known.1, known.2.2⟩
  have root : tree.root.kind ≠ .typeRef := by
    rw [show tree.root.kind = .document from formed.root]
    simp
  refine ⟨?_, symbols_of formed serial uri, ?_, fun r mem => (inText mem).1,
    apart_of lossless formed serial uri, fun s => symbolText_of lossless formed,
    fun r mem => (inText mem).2⟩
  · rw [Element.map_id_nodesFrom]
    exact lossless.nodup
  · rw [show tree.element.nodesFrom 0 = tree.root :: Element.nodesAmong 0 tree.children from rfl,
      List.filter_cons_of_neg (by simp [root])]
    exact Element.referencesAmong_of formed.nodes.2 0 _ false

/-- A malformed protocol, in which a field is renamed, with an unfinished message at its end. -/
theorem covers_revisions_unfinished :
    let text : Bytes := "protocol P \x7b error `E` { a.b c } record R { union { E } d; } R f(E"
    let steps : List Revision := [.edit ⟨56, 1, "dd"⟩ {}, .compact]
    let tree := (Tree.parse text).revisions steps
    (∀ step ∈ steps, step.Limited) ∧ (ofTree 1 [] tree).symbols.length = 3 ∧
      (ofTree 1 [] tree).references.length = 4 ∧ (ofTree 1 [] tree).Covers tree := by
  intro text steps tree
  have limited : ∀ step ∈ steps, step.Limited := by simp [steps, Revision.Limited]
  exact ⟨limited, by decide +kernel, by decide +kernel, covers_revisions text {} steps limited 1 []⟩

end Table

end AvroIdl
