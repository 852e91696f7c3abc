import AvroIdl.Proofs.Symbol.Identity
import AvroIdl.Proofs.Tree.Offset

/-!
# Import statements at their places

The imports of an IDL document are those of its import statements, each of which stands in the
document or in a protocol of it: `Table.imports_ofTree`. Statements have different numbers, and so
their paths stand at different places, `Table.eq_of_pathSpan`, where no type is named,
`Table.nameSpan_ne_pathSpan`.
-/

namespace AvroIdl

namespace Node

/-- What the node asks for, if it is an import statement. -/
def asked (n : Node) : List Import := if n.kind = .importStmt then n.import?.toList else []

/-- What the import statements in a statement of the document ask for. -/
def askedIn (n : Node) : List Import :=
  if n.kind = .protocolDecl then n.childNodes.flatMap asked else n.asked

end Node

namespace Table

theorem imports_add (t : Table) (s : Symbol) : (t.add s).imports = t.imports := by
  unfold add
  split_ifs <;> rfl

theorem imports_addStatement (t : Table) (n : Node) (enclosing : Bytes) :
    (t.addStatement n enclosing).imports = t.imports ++ n.asked := by
  unfold addStatement Node.asked
  split_ifs
  · rfl
  · rw [List.append_nil]
    unfold declare
    split
    · exact imports_add ..
    · rfl

theorem imports_foldl {f : Table → Node → Table} {asked : Node → List Import}
    (step : ∀ t n, (f t n).imports = t.imports ++ asked n) (ns : List Node) (t : Table) :
    (ns.foldl f t).imports = t.imports ++ ns.flatMap asked := by
  induction ns generalizing t with
  | nil => exact (List.append_nil _).symm
  | cons n rest ih => rw [List.foldl_cons, ih, step, List.flatMap_cons, List.append_assoc]

theorem imports_addItem (t : Table) (n : Node) : (t.addItem n).imports = t.imports ++ n.askedIn := by
  unfold addItem Node.askedIn
  split_ifs
  · unfold addProtocol
    rw [imports_foldl fun t c => t.imports_addStatement c _]
    congr 1
    have spaced (space : Bytes) :
        (if t.protocol?.isNone then { t with nameSpace := space } else t).imports = t.imports := by
      split_ifs <;> rfl
    cases n.name? with
    | some name => exact (imports_add ..).trans (spaced _)
    | none => exact spaced _
  · exact t.imports_addStatement n _

/-- The imports of a document are those of its import statements, in their order. -/
theorem imports_ofTree (serial : Nat) (uri : Bytes) (tree : Tree) :
    (ofTree serial uri tree).imports = tree.root.childNodes.flatMap Node.askedIn :=
  (imports_foldl imports_addItem tree.root.childNodes _).trans (List.nil_append _)

end Table

/-! ## Places -/

/-- An import at the leaf that holds its path. -/
structure Import.At (i : Import) (p : Leaf × List Node) : Prop where
  written : ∃ n above, p.2 = n :: above ∧ n.kind = .importStmt ∧ n.id = i.node
  pathSpan : i.pathSpan = p.1.span
  some : p.1.text ≠ []

theorem Import.At.contains {i : Import} {p : Leaf × List Node} (h : i.At p) :
    p.1.Contains i.pathSpan.start := by
  rw [h.pathSpan]
  exact ⟨Nat.le_refl _, Nat.lt_add_of_pos_right (List.length_pos_of_ne_nil h.some)⟩

namespace Node

variable {n : Node} {i : Import}

/-- What a statement asks for has a path, and so there is a literal. -/
theorem import?_eq_some (h : n.import? = some i) : ∃ literal, n.name? = some literal ∧
    i.node = n.id ∧ i.pathSpan = literal.span ∧ literal.text ≠ [] := by
  simp only [import?, Option.bind_eq_bind, Option.bind_eq_some_iff] at h
  obtain ⟨word, -, kind, -, literal, named, h⟩ := h
  split_ifs at h with nothing
  obtain rfl := Option.some.inj h
  refine ⟨literal, named, rfl, rfl, fun empty => nothing ?_⟩
  rw [empty]
  rfl

theorem at_of_asked (mem : i ∈ n.asked) (above : List Node) :
    ∃ p ∈ Table.below n above, i.At p := by
  unfold asked at mem
  split_ifs at mem with kind
  · obtain ⟨literal, named, node, span, some⟩ := import?_eq_some (Option.mem_toList.mp mem)
    exact ⟨_, mem_of_name? named above, ⟨n, above, rfl, kind, node.symm⟩, span, some⟩
  · contradiction

theorem map_node_asked (n : Node) : (n.asked.map Import.node).Sublist [n.id] := by
  unfold asked
  split_ifs
  · cases read : n.import? with
    | none => exact List.nil_sublist _
    | some i =>
      obtain ⟨-, -, node, -⟩ := import?_eq_some read
      rw [Option.toList_some, List.map_singleton, node]
  · exact List.nil_sublist _

end Node

theorem flatMap_sublist {α β : Type} {f g : α → List β} (h : ∀ a, (f a).Sublist (g a))
    (as : List α) : (as.flatMap f).Sublist (as.flatMap g) := by
  induction as with
  | nil => exact .slnil
  | cons a rest ih => exact (h a).append ih

namespace Tree

variable {tree : Tree} {p q : Leaf × List Node} {n : Node} {above : List Node}

/-- Where there is a statement, the widths of the tree are right. -/
theorem measured_of_statement (lossless : tree.Lossless) (mem : p ∈ tree.leafPaths)
    (path : p.2 = n :: above) (alone : n.kind.standsAlone = true) :
    tree.element.All Element.Measured := by
  refine lossless.measured.resolve_right fun long => ?_
  rcases Element.all_of_leafPaths long.2 mem n (by simp [path]) with none | other
  · contradiction
  · rw [show n.label.kind.standsAlone = true from alone] at other
    contradiction

/-- Where there is a statement, a place in the text belongs to one leaf. -/
theorem eq_of_contains (measured : tree.element.All Element.Measured) (hp : p ∈ tree.leafPaths)
    (hq : q ∈ tree.leafPaths) {offset : Nat} (inP : p.1.Contains offset) (inQ : q.1.Contains offset) :
    p = q :=
  inP.eq_of_pairwise (Element.pairwise_leafPathsAll measured.2 0 _) hp hq inQ

/-- What names a declaration is a name. -/
theorem Shaped.named (shaped : tree.Shaped) (measured : tree.element.All Element.Measured)
    (mem : p ∈ tree.leafPaths) (path : p.2 = n :: above) (named : n.name? = some p.1)
    (declares : n.kind.declares = true) : p.1.token.Named := by
  have nodes := shaped.nodes.imp fun _ _ here _ => here.named
  have name := isName_of_named nodes mem path named (.inr declares)
  have leaf : p.1 ∈ Leaf.located 0 tree.element.tokens := by
    rw [← Element.leafPaths_eq measured 0 []]
    exact List.mem_map_of_mem mem
  obtain ⟨before, after, all, -⟩ := Leaf.split_of_mem leaf
  exact shaped.words _ (by simp [all]) name

end Tree

namespace Table

variable {tree : Tree} {serial : Nat} {uri : Bytes} {i j : Import} {s : Symbol}

theorem imports_at (mem : i ∈ (ofTree serial uri tree).imports) : ∃ p ∈ tree.leafPaths, i.At p := by
  rw [imports_ofTree] at mem
  obtain ⟨n, item, mem⟩ := List.mem_flatMap.mp mem
  have inside : below n [tree.root] ⊆ tree.leafPaths :=
    (Element.leafPaths_of_childNodes (Node.mem_childNodes.mp item) [tree.root]).subset
  unfold Node.askedIn at mem
  split_ifs at mem
  · obtain ⟨c, child, mem⟩ := List.mem_flatMap.mp mem
    obtain ⟨p, here, at_⟩ := Node.at_of_asked mem [n, tree.root]
    have sublist := Element.leafPaths_of_childNodes (Node.mem_childNodes.mp child) [n, tree.root]
    exact ⟨p, inside (sublist.subset here), at_⟩
  · obtain ⟨p, here, at_⟩ := Node.at_of_asked mem [tree.root]
    exact ⟨p, inside here, at_⟩

/-- Import statements have different numbers. -/
theorem nodup_nodes (lossless : tree.Lossless) :
    ((ofTree serial uri tree).imports.map Import.node).Nodup := by
  have ids := lossless.nodup
  rw [tree.ids_eq, List.nodup_cons] at ids
  have own (n : Node) : (n.asked.map Import.node).Sublist n.element.ids := by
    rw [n.ids_element]
    exact n.map_node_asked.trans (.cons_cons _ (List.nil_sublist _))
  rw [imports_ofTree, List.map_flatMap]
  refine (flatMap_sublist (fun n => ?_) _).nodup ids.2
  unfold Node.askedIn
  split_ifs
  · rw [n.ids_element, List.map_flatMap]
    exact .cons _ (flatMap_sublist own _)
  · exact own n

/-- The path of each import statement has a place of its own. -/
theorem eq_of_pathSpan (lossless : tree.Lossless) (hi : i ∈ (ofTree serial uri tree).imports)
    (hj : j ∈ (ofTree serial uri tree).imports) (same : i.pathSpan = j.pathSpan) : i = j := by
  obtain ⟨p, hp, written⟩ := imports_at hi
  obtain ⟨q, hq, written'⟩ := imports_at hj
  obtain ⟨n, above, path, kind, node⟩ := written.written
  obtain ⟨m, above', path', -, node'⟩ := written'.written
  have measured := Tree.measured_of_statement lossless hp path (by rw [kind]; rfl)
  obtain rfl := Tree.eq_of_contains measured hp hq written.contains (same ▸ written'.contains)
  obtain ⟨rfl, -⟩ := List.cons.inj (path.symm.trans path')
  exact List.inj_on_of_nodup_map (nodup_nodes lossless) hi hj (node.symm.trans node')

/-- A symbol is named at a place in the leaf that names it, in as many bytes as its name has. -/
theorem nameSpan_at (lossless : tree.Lossless) (shaped : tree.Shaped)
    (mem : s ∈ (ofTree serial uri tree).symbols) : ∃ p ∈ tree.leafPaths, s.At p ∧
      p.1.Contains s.nameSpan.start ∧ s.nameSpan.len = s.simpleName.length := by
  obtain ⟨p, here, at_⟩ := symbols_at serial uri tree s mem
  obtain ⟨n, above, path, declares, named, -⟩ := at_.declared
  have alone : n.kind.standsAlone = true := by
    revert declares
    cases n.kind <;> simp [NodeKind.declares, NodeKind.standsAlone]
  have measured := Tree.measured_of_statement lossless here path alone
  obtain ⟨front, back, text, some, span, -⟩ :=
    (shaped.named measured here path named declares).split
  have size := congrArg List.length text
  have span : s.nameSpan = ⟨p.1.start + front.length, s.simpleName.length⟩ := by
    rw [at_.nameSpan, at_.simpleName]
    exact span p.1.start
  refine ⟨p, here, at_, ?_, by rw [span]⟩
  rw [span]
  have := List.length_pos_of_ne_nil some
  simp only [List.length_append] at size
  exact ⟨by dsimp only; omega, by dsimp only; rw [Leaf.text]; omega⟩

/-- No type is named where the path of an import stands. -/
theorem nameSpan_ne_pathSpan (lossless : tree.Lossless) (shaped : tree.Shaped)
    (declared : s ∈ (ofTree serial uri tree).symbols) (hi : i ∈ (ofTree serial uri tree).imports) :
    s.nameSpan ≠ i.pathSpan := by
  intro same
  obtain ⟨p, hp, at_, inP, -⟩ := nameSpan_at lossless shaped declared
  obtain ⟨q, hq, written⟩ := imports_at hi
  obtain ⟨n, above, path, declares, -⟩ := at_.declared
  obtain ⟨m, above', path', kind, -⟩ := written.written
  have measured := Tree.measured_of_statement lossless hq path' (by rw [kind]; rfl)
  obtain rfl := Tree.eq_of_contains measured hp hq inP (same ▸ written.contains)
  obtain ⟨rfl, -⟩ := List.cons.inj (path.symm.trans path')
  rw [kind] at declares
  contradiction

end Table

end AvroIdl
