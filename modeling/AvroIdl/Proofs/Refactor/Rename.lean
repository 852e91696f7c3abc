import AvroIdl.Proofs.Project.Timeline
import AvroIdl.Proofs.Refactor.Edit

/-!
# Renaming changes the right names

A renaming edits the leaf that names the declaration and the leaves of the references that mean it,
and no others: `Snapshot.renamedLeaves`. They are different leaves of the text, so that the edits can
be carried out. After them the text is read as the same tokens, with the new name in these leaves:
`Snapshot.rename_tokens`.

Trees have to be what reading their texts gives. After an edit inside the first token of a statement
the leaves may be others than the tokens of the text: `Snapshot.rename_stale_leaf`.
-/

namespace AvroIdl

open Token (textOf)
open Leaf (located)

/-- A reference ends with the simple name of what it means. -/
theorem Reference.simpleName_of_resolve (r : Reference) {scope : Scope}
    (sound : ∀ t ∈ scope.visible, t.Sound) :
    ∀ s ∈ (r.resolve scope).symbols, s.simpleName = Name.simple r.name := by
  intro s mem
  obtain ⟨t, -, -, named⟩ := r.resolve_found sound s mem
  have plain (simple : r.isQualified = false) : Name.dot ∉ r.name := by
    rw [isQualified, Name.isQualified, ← Bool.not_eq_true, List.contains_iff_mem] at simple
    exact simple
  rcases named with full | ⟨simple, named⟩
  · rw [Symbol.simpleName]
    rw [fullNames] at full
    split_ifs at full with whole
    · rw [List.mem_singleton.mp full]
    · rw [Bool.or_eq_true, not_or, Bool.not_eq_true] at whole
      simp only [List.mem_cons, List.not_mem_nil, or_false] at full
      rcases full with full | full
      · rw [full, Name.simple_append (plain whole.1), Name.simple_of_not_mem (plain whole.1)]
      · rw [full]
  · rw [named, Name.simple_of_not_mem (plain simple)]

namespace Leaf

theorem nodup_located (start : Nat) {ts : List Token} (some : ∀ t ∈ ts, t.text ≠ []) :
    (located start ts).Nodup := by
  refine (pairwise_located start ts).imp_of_mem fun {a b} ha _ apart same => ?_
  obtain ⟨before, after, rfl, -⟩ := split_of_mem ha
  have := List.length_pos_iff.mpr (some a.token (by simp))
  rw [← same, Leaf.text] at apart
  omega

end Leaf

/-! ## The leaves of one document -/

section

variable {t : Tree} {p : Leaf × List Node}

theorem Reference.At.nameOf?_eq {r : Reference} (h : r.At p) (lossless : t.Lossless)
    (mem : p ∈ t.leafPaths) : t.nameOf? r.node = some p.1 := by
  obtain ⟨n, above, path, -, named, id⟩ := h.written
  have here : (p.1, n :: above) ∈ t.leafPaths := by rwa [← path]
  rw [← id, Tree.nameOf?_eq lossless here, named]

theorem Symbol.At.nameOf?_eq {symbol : Symbol} (h : symbol.At p) (lossless : t.Lossless)
    (mem : p ∈ t.leafPaths) : symbol.decl.bind t.nameOf? = some p.1 := by
  obtain ⟨n, above, path, -, named, id⟩ := h.declared
  have here : (p.1, n :: above) ∈ t.leafPaths := by rwa [← path]
  rw [id, Option.bind_some, Tree.nameOf?_eq lossless here, named]

theorem Reference.At.filterMap_eq {rs : List Reference} {ps : List (Leaf × List Node)}
    (h : List.Forall₂ Reference.At rs ps) (lossless : t.Lossless) (sub : ps ⊆ t.leafPaths) :
    (rs.filterMap fun r => t.nameOf? r.node) = ps.map Prod.fst := by
  induction h with
  | nil => rfl
  | cons first rest ih =>
    have here := first.nameOf?_eq lossless (sub List.mem_cons_self)
    simp only [List.filterMap_cons, here, List.map_cons, ih fun q mem => sub (.tail _ mem)]

end

/-! ## What edits at leaves do to a text -/

/-- Different leaves of a text, which are names with the simple name of a symbol. -/
structure Renames (text : Bytes) (symbol : Symbol) (leaves : List Leaf) : Prop where
  nodup : leaves.Nodup
  named : ∀ l ∈ leaves, l.token.Named ∧ Name.simple (identText l.text) = symbol.simpleName
  fits : leaves ≠ [] → text.length ≤ maxOffset ∧ ∀ l ∈ leaves, l ∈ located 0 (Token.all text)

theorem Renames.nil (text : Bytes) (symbol : Symbol) : Renames text symbol [] :=
  ⟨List.nodup_nil, nofun, fun some => absurd rfl some⟩

namespace Renames

variable {text : Bytes} {symbol : Symbol} {leaves : List Leaf} {uri newName : Bytes}
  {edits : List TextEdit}

theorem filter_perm (h : Renames text symbol leaves) (some : leaves ≠ []) :
    ((located 0 (Token.all text)).filter (· ∈ leaves)).Perm leaves := by
  rw [List.perm_ext_iff_of_nodup ((Leaf.nodup_located 0 fun _ => Token.text_ne_nil).filter _) h.nodup]
  intro l
  rw [List.mem_filter, decide_eq_true_eq]
  exact ⟨And.right, fun mem => ⟨(h.fits some).2 l mem, mem⟩⟩

/-- The edits stand apart, and the text after them is that of the tokens with their new names. -/
theorem applyAll_eq (h : Renames text symbol leaves)
    (perm : edits.Perm (leaves.map (Leaf.rename uri newName))) :
    (edits.Pairwise fun a b => a.span.stop ≤ b.span.start ∨ b.span.stop ≤ a.span.start) ∧
      TextEdit.applyAll text edits =
        .ok (textOf ((located 0 (Token.all text)).map (Leaf.renamedIf (· ∈ leaves) newName))) := by
  by_cases none : leaves = []
  · subst none
    obtain rfl := List.perm_nil.mp perm
    have same : Leaf.renamedIf (· ∈ ([] : List Leaf)) newName = Leaf.token := by
      funext l
      simp [Leaf.renamedIf]
    rw [same, Leaf.map_token_located, Token.text_all]
    exact ⟨.nil, by simp [TextEdit.applyAll, TextEdit.sort, TextEdit.applyFrom]⟩
  · have small := (h.fits none).1
    have named : ∀ l ∈ located 0 (Token.all text), decide (l ∈ leaves) = true → l.token.Named :=
      fun l _ mem => (h.named l (of_decide_eq_true mem)).1
    have perm := perm.trans ((h.filter_perm none).map (Leaf.rename uri newName)).symm
    refine ⟨?_, TextEdit.applyAll_renaming small named perm⟩
    rw [perm.pairwise_iff Or.symm]
    exact (TextEdit.pairwise_renaming (by rwa [Token.text_all]) named).imp fun h => .inl h.2.2

/-- Each edit replaces the simple name of the symbol. -/
theorem replaced_eq (h : Renames text symbol leaves)
    (perm : edits.Perm (leaves.map (Leaf.rename uri newName))) :
    ∀ e ∈ edits, e.newText = newName ∧
      text.slice e.span.start e.span.stop = symbol.simpleName := by
  intro e mem
  obtain ⟨l, hl, rfl⟩ := List.mem_map.mp (perm.subset mem)
  obtain ⟨small, located⟩ := h.fits (List.ne_nil_of_mem hl)
  obtain ⟨named, simple⟩ := h.named l hl
  have slice := Leaf.slice_simpleName (located l hl) (by rwa [Token.text_all]) named
  rw [Token.text_all] at slice
  exact ⟨rfl, simple ▸ slice⟩

/-- The text after the edits is read as the same tokens, with their new names. -/
theorem all_eq (h : Renames text symbol leaves) (valid : nameProblem? newName = none)
    (proper : ∀ t ∈ Token.all text, t.kind ≠ .error) :
    Token.all (textOf ((located 0 (Token.all text)).map (Leaf.renamedIf (· ∈ leaves) newName))) =
      (located 0 (Token.all text)).map (Leaf.renamedIf (· ∈ leaves) newName) := by
  obtain ⟨identifier, kind⟩ := isIdentifier_of_nameProblem? valid
  have replaces (l : Leaf) : l.token.Replaces (l.renamedIf (· ∈ leaves) newName) := by
    rw [Leaf.renamedIf]
    split_ifs with picked
    · obtain ⟨front, back, split⟩ := (h.named l (of_decide_eq_true picked)).1.split
      rw [split.renamed_eq]
      exact split.replaces identifier kind
    · exact .same _
  have replaced : List.Forall₂ Token.Replaces (Token.all text)
      ((located 0 (Token.all text)).map (Leaf.renamedIf (· ∈ leaves) newName)) := by
    have pairs : List.Forall₂ Token.Replaces ((located 0 (Token.all text)).map Leaf.token)
        ((located 0 (Token.all text)).map (Leaf.renamedIf (· ∈ leaves) newName)) := by
      rw [List.forall₂_map_left_iff, List.forall₂_map_right_iff, List.forall₂_same]
      exact fun l _ => replaces l
    rwa [Leaf.map_token_located] at pairs
  exact (Token.all_replaced replaced (by rw [Token.text_all]) proper).1

end Renames

namespace Snapshot

/-- No two documents share a URI, and each table is that of its document. -/
structure Sound (s : Snapshot) : Prop where
  distinct : (s.docs.map Document.uri).Nodup
  indexed : ∀ d ∈ s.docs, d.Indexed

/-- A reference of a document with what it means in the scope of the document. -/
def meaning (s : Snapshot) (d : Document) (r : Reference) : Usage :=
  ⟨d.uri, r, r.resolve (s.scopeOf d)⟩

/-- All references of IDL documents with what they mean in the scopes of the snapshot. -/
def meanings (s : Snapshot) : List Usage :=
  (s.documents.filter fun d => d.tree?.isSome).flatMap fun d => d.table.references.map (s.meaning d)

/-- The leaves of a document that name a symbol: that of its declaration, and those of the references
that mean it. -/
def renamedLeaves (s : Snapshot) (symbol : Symbol) (d : Document) : List Leaf :=
  let nameOf? (id : NodeId) : Option Leaf := d.tree?.bind fun t => t.nameOf? id
  let declared := if d.uri = symbol.uri then symbol.decl.bind nameOf? else none
  declared.toList ++
    (d.table.references.filter fun r => (s.meaning d r).means symbol).filterMap fun r => nameOf? r.node

variable {s : Snapshot}

theorem Sound.eq_of_uri (h : s.Sound) {d e : Document} (hd : d ∈ s.docs) (he : e ∈ s.docs)
    (same : d.uri = e.uri) : d = e := List.inj_on_of_nodup_map h.distinct hd he same

/-- The references of one document among those of all. -/
theorem filter_meanings (h : s.Sound) {d : Document} (mem : d ∈ s.docs) :
    s.meanings.filter (fun u => u.uri = d.uri) =
      if d.tree?.isSome then d.table.references.map (s.meaning d) else [] := by
  have of_other {e : Document} (other : e.uri ≠ d.uri) :
      (e.table.references.map (s.meaning e)).filter (fun u => u.uri = d.uri) = [] := by
    rw [List.filter_eq_nil_iff]
    intro u usage
    obtain ⟨r, -, rfl⟩ := List.mem_map.mp usage
    simp [meaning, other]
  have of_others (ds : List Document) (others : ∀ e ∈ ds, e.uri ≠ d.uri) :
      (ds.flatMap fun e => e.table.references.map (s.meaning e)).filter (fun u => u.uri = d.uri) =
        [] := by
    rw [List.filter_flatMap, List.flatMap_eq_nil_iff]
    exact fun e mem => of_other (others e mem)
  have of_own : (d.table.references.map (s.meaning d)).filter (fun u => u.uri = d.uri) =
      d.table.references.map (s.meaning d) := by
    rw [List.filter_eq_self]
    intro u usage
    obtain ⟨r, -, rfl⟩ := List.mem_map.mp usage
    simp [meaning]
  have sorted : s.documents.Perm s.docs := List.mergeSort_perm ..
  have distinct : (s.documents.map Document.uri).Nodup := (sorted.map _).nodup_iff.mpr h.distinct
  split_ifs with tree
  · have among : d ∈ s.documents.filter fun e => e.tree?.isSome :=
      List.mem_filter.mpr ⟨sorted.symm.subset mem, tree⟩
    obtain ⟨before, after, split⟩ := List.append_of_mem among
    have sublist : (before ++ d :: after).Sublist s.documents := split ▸ List.filter_sublist
    have apart := (sublist.map Document.uri).nodup distinct
    rw [List.map_append, List.map_cons, List.nodup_middle, List.nodup_cons, ← List.map_append]
      at apart
    have others : ∀ e ∈ before ++ after, e.uri ≠ d.uri := by
      intro e mem same
      exact apart.1 (same ▸ List.mem_map_of_mem mem)
    rw [meanings, split, List.flatMap_append, List.flatMap_cons, List.filter_append,
      List.filter_append, of_own, of_others before fun e mem => others e (List.mem_append_left _ mem),
      of_others after fun e mem => others e (List.mem_append_right _ mem), List.nil_append,
      List.append_nil]
  · apply of_others
    intro e among same
    obtain ⟨held, idl⟩ := List.mem_filter.mp among
    rw [h.eq_of_uri (sorted.subset held) mem same] at idl
    exact tree idl

theorem Sound.visible (h : s.Sound) {d : Document} (mem : d ∈ s.docs) :
    ∀ t ∈ (s.scopeOf d).visible, t.Sound := by
  intro t visible
  obtain ⟨e, held, rfl⟩ := visible_scopeOf mem visible
  exact (h.indexed e held).sound

/-- A usage that means a symbol ends with its simple name. -/
theorem Sound.simpleName_of_means (h : s.Sound) {d : Document} (mem : d ∈ s.docs) {r : Reference}
    {symbol : Symbol} (means : (s.meaning d r).means symbol = true) :
    Name.simple r.name = symbol.simpleName := by
  unfold Usage.means at means
  split at means
  next found resolved =>
    have resolved : r.resolve (s.scopeOf d) = .resolved found := resolved
    have meant := r.simpleName_of_resolve (h.visible mem) found (by simp [resolved, Resolution.symbols])
    have same : found.name = symbol.name := by
      simp only [Symbol.same, Bool.and_eq_true, decide_eq_true_eq] at means
      exact means.1.1.1.2
    rw [← meant, Symbol.simpleName, same]
    rfl
  next => contradiction

section

variable {d : Document} {t : Tree} {symbol : Symbol}

theorem renamedLeaves_eq (tree : d.tree? = some t) :
    s.renamedLeaves symbol d =
      (if d.uri = symbol.uri then symbol.decl.bind t.nameOf? else none).toList ++
        (d.table.references.filter fun r => (s.meaning d r).means symbol).filterMap fun r =>
          t.nameOf? r.node := by
  rw [renamedLeaves, tree]
  rfl

theorem Sound.declared_leaf (h : s.Sound) (mem : d ∈ s.docs) (tree : d.tree? = some t)
    (declared : symbol ∈ d.table.symbols) :
    ∃ p ∈ t.leafPaths, symbol.decl.bind t.nameOf? = some p.1 ∧ symbol.At p := by
  obtain ⟨table, lossless, -⟩ := (h.indexed d mem).ofTree t tree
  obtain ⟨p, leaf, here⟩ := Table.symbols_at d.serial d.uri t symbol (table ▸ declared)
  exact ⟨p, leaf, here.nameOf?_eq lossless leaf, here⟩

theorem Sound.used_leaf (h : s.Sound) (mem : d ∈ s.docs) (tree : d.tree? = some t) {r : Reference}
    (used : r ∈ d.table.references) : ∃ p ∈ t.leafPaths, t.nameOf? r.node = some p.1 ∧ r.At p := by
  obtain ⟨table, lossless, -⟩ := (h.indexed d mem).ofTree t tree
  obtain ⟨ps, sublist, written⟩ := Table.references_at d.serial d.uri t
  rw [← table] at written
  obtain ⟨p, among, here⟩ := exists_of_forall₂ written used
  have leaf := sublist.subset among
  exact ⟨p, leaf, here.nameOf?_eq lossless leaf, here⟩

/-- Every leaf that names a symbol is below a node that it names: a declaration or a type. -/
theorem Sound.named_by (h : s.Sound) (mem : d ∈ s.docs) (tree : d.tree? = some t)
    (declared : d.uri = symbol.uri → symbol ∈ d.table.symbols) {l : Leaf}
    (hl : l ∈ s.renamedLeaves symbol d) :
    ∃ p ∈ t.leafPaths, p.1 = l ∧ Name.simple (identText l.text) = symbol.simpleName ∧
      ∃ n above, p.2 = n :: above ∧ n.name? = some p.1 ∧
        (n.kind = .typeRef ∨ n.kind.declares = true) := by
  rw [renamedLeaves_eq tree] at hl
  rcases List.mem_append.mp hl with here | there
  · split_ifs at here with own
    · obtain ⟨p, leaf, found, written⟩ := h.declared_leaf mem tree (declared own)
      obtain rfl : l = p.1 := by simpa [found] using here
      obtain ⟨n, above, path, kind, named, -⟩ := written.declared
      exact ⟨p, leaf, rfl, written.simpleName.symm, n, above, path, named, .inr kind⟩
    · contradiction
  · obtain ⟨r, used, named⟩ := List.mem_filterMap.mp there
    obtain ⟨used, means⟩ := List.mem_filter.mp used
    obtain ⟨p, leaf, found, written⟩ := h.used_leaf mem tree used
    obtain rfl : p.1 = l := Option.some.inj (found.symm.trans named)
    obtain ⟨n, above, path, kind, name, -⟩ := written.written
    refine ⟨p, leaf, rfl, ?_, n, above, path, name, .inl kind⟩
    rw [← h.simpleName_of_means mem means, written.name]

/-- The leaves that name a symbol are different ones, since a declaration is no type. -/
theorem Sound.nodup_renamedLeaves (h : s.Sound) (mem : d ∈ s.docs) (tree : d.tree? = some t)
    (declared : d.uri = symbol.uri → symbol ∈ d.table.symbols)
    (distinct : (t.leafPaths.map Prod.fst).Nodup) : (s.renamedLeaves symbol d).Nodup := by
  obtain ⟨table, lossless, -⟩ := (h.indexed d mem).ofTree t tree
  rw [renamedLeaves_eq tree, List.nodup_append]
  refine ⟨Option.toList_nodup _, ?_, fun l here l' there same => ?_⟩
  · obtain ⟨ps, sublist, written⟩ := Table.references_at d.serial d.uri t
    rw [← table] at written
    have all := Reference.At.filterMap_eq written lossless sublist.subset
    have some : ((d.table.references.filter fun r => (s.meaning d r).means symbol).filterMap fun r =>
        t.nameOf? r.node).Sublist (ps.map Prod.fst) := all ▸ List.filter_sublist.filterMap _
    exact (some.trans (sublist.map Prod.fst)).nodup distinct
  · split_ifs at here with own
    · obtain ⟨p, leaf, found, written⟩ := h.declared_leaf mem tree (declared own)
      obtain rfl : l = p.1 := by simpa [found] using here
      obtain ⟨r, used, named⟩ := List.mem_filterMap.mp there
      obtain ⟨q, leaf', found', written'⟩ := h.used_leaf mem tree (List.mem_filter.mp used).1
      obtain rfl : q.1 = l' := Option.some.inj (found'.symm.trans named)
      obtain rfl : p = q := List.inj_on_of_nodup_map distinct leaf leaf' same
      obtain ⟨n, above, path, kind, -⟩ := written.declared
      obtain ⟨n', above', path', kind', -⟩ := written'.written
      obtain ⟨rfl, -⟩ := List.cons.inj (path.symm.trans path')
      rw [kind'] at kind
      contradiction
    · contradiction

theorem Sound.renames (h : s.Sound) (mem : d ∈ s.docs) (tree : d.tree? = some t) {limit : Nat}
    (fresh : t.Fresh limit) (declared : d.uri = symbol.uri → symbol ∈ d.table.symbols) :
    Renames d.text symbol (s.renamedLeaves symbol d) := by
  obtain ⟨-, lossless, text⟩ := (h.indexed d mem).ofTree t tree
  have named_by {l : Leaf} (hl : l ∈ s.renamedLeaves symbol d) := h.named_by mem tree declared hl
  by_cases none : s.renamedLeaves symbol d = []
  · rw [none]
    exact .nil ..
  -- A text in which something is named is not too long, and its tokens are the leaves.
  have fits : t.text.length ≤ limit ∧ t.text.length ≤ maxOffset := by
    obtain ⟨l, hl⟩ := List.exists_mem_of_ne_nil _ none
    obtain ⟨p, leaf, -, -, n, above, path, named, -⟩ := named_by hl
    exact Tree.fits_of_named fresh leaf path named
  have leaves := Tree.leaves_eq lossless fresh fits
  rw [← text]
  refine ⟨h.nodup_renamedLeaves mem tree declared ?_, fun l hl => ?_,
    fun _ => ⟨fits.2, fun l hl => ?_⟩⟩
  · rw [leaves]
    exact Leaf.nodup_located 0 fun token => Token.text_ne_nil
  · obtain ⟨p, leaf, rfl, simple, n, above, path, named, kind⟩ := named_by hl
    exact ⟨Tree.named_leaf lossless fresh leaf path named kind, simple⟩
  · obtain ⟨p, leaf, rfl, -⟩ := named_by hl
    rw [← leaves]
    exact List.mem_map_of_mem leaf

/-- The edit of a reference stands at its leaf. -/
theorem Sound.map_renamed (h : s.Sound) (mem : d ∈ s.docs) (tree : d.tree? = some t)
    (newName : Bytes) {rs : List Reference} (sub : rs ⊆ d.table.references) :
    (rs.map fun r => (s.meaning d r).renamed newName) =
      (rs.filterMap fun r => t.nameOf? r.node).map (Leaf.rename d.uri newName) := by
  induction rs with
  | nil => rfl
  | cons r rest ih =>
    obtain ⟨p, -, found, written⟩ := h.used_leaf mem tree (sub List.mem_cons_self)
    have here : (s.meaning d r).renamed newName = p.1.rename d.uri newName := by
      rw [Usage.renamed, Leaf.rename, ← written.nameSpan]
      rfl
    simp only [List.map_cons, List.filterMap_cons, found, here, ih fun q mem => sub (.tail _ mem)]

/-- The edits of one document stand at the leaves that name the symbol. -/
theorem Sound.edits_perm (h : s.Sound) (mem : d ∈ s.docs)
    (declared : d.uri = symbol.uri → symbol ∈ d.table.symbols ∧ d.tree?.isSome) (newName : Bytes) :
    ((TextEdit.sort (⟨symbol.uri, symbol.nameSpan, newName⟩ ::
        (s.meanings.filter (·.means symbol)).map (·.renamed newName))).filter
          (·.uri = d.uri)).Perm ((s.renamedLeaves symbol d).map (Leaf.rename d.uri newName)) := by
  have usages : ((s.meanings.filter (·.means symbol)).map (·.renamed newName)).filter
      (·.uri = d.uri) =
        ((s.meanings.filter (·.uri = d.uri)).filter (·.means symbol)).map (·.renamed newName) := by
    rw [List.filter_map, List.filter_filter, List.filter_filter]
    congr 2
    funext u
    exact Bool.and_comm _ _
  refine ((List.mergeSort_perm ..).filter _).trans (.of_eq ?_)
  rw [List.filter_cons, usages, filter_meanings h mem]
  cases tree : d.tree? with
  | none =>
    have other : ¬ symbol.uri = d.uri := by
      intro same
      simpa [tree] using (declared same.symm).2
    simp [other, renamedLeaves, tree]
  | some t =>
    rw [renamedLeaves_eq tree, Option.isSome_some, if_pos rfl, List.filter_map, List.map_map,
      List.map_append]
    have used := h.map_renamed mem tree newName
      (List.filter_subset_self (p := fun r => (s.meaning d r).means symbol) d.table.references)
    rw [← used]
    by_cases own : d.uri = symbol.uri
    · obtain ⟨p, -, found, written⟩ := h.declared_leaf mem tree (declared own).1
      rw [if_pos own, found, if_pos (by simp [own]), written.nameSpan, own]
      rfl
    · rw [if_neg own, if_neg (by simpa using Ne.symm own)]
      rfl

end

/-- The edits of a renaming that is not refused. -/
theorem rename_ok (s : Snapshot) (c : Cache) {symbol : Symbol} {newName : Bytes}
    (valid : nameProblem? newName = none) (written : symbol.fromJson = false)
    (loaded : (s.document? symbol.uri).isNone = false) :
    ∃ warnings, (s.rename c symbol newName).2 =
      .ok ⟨TextEdit.sort (⟨symbol.uri, symbol.nameSpan, newName⟩ ::
        ((s.references c).2.filter (·.means symbol)).map (·.renamed newName)), warnings⟩ := by
  rw [rename, valid]
  simp only [written, loaded, Bool.false_eq_true, if_false]
  exact ⟨_, rfl⟩

/-- In a snapshot whose trees are what reading their texts gives, and whose references mean what they
mean in its own scopes, a symbol can get every name that a type can have. In every document the edits
stand apart, each in the place of the simple name of the symbol, and they can be carried out. If the
text has no malformed tokens, it is read afterwards as the same tokens, with the new name in the leaves
that name the symbol, and nowhere else. -/
theorem rename_tokens {limit : Nat} {c : Cache} {d₀ : Document} {symbol : Symbol} {newName : Bytes}
    (sound : s.Sound) (fresh : ∀ d ∈ s.docs, ∀ t, d.tree? = some t → t.Fresh limit)
    (own : (s.references c).2 = s.meanings) (held : d₀ ∈ s.docs) (idl : d₀.tree?.isSome)
    (declared : symbol ∈ d₀.table.symbols) (valid : nameProblem? newName = none) :
    ∃ result, (s.rename c symbol newName).2 = .ok result ∧
      (∀ e ∈ result.edits, ∃ d ∈ s.docs, d.uri = e.uri) ∧
      ∀ d ∈ s.docs,
        let edits := result.edits.filter (·.uri = d.uri)
        let tokens := (located 0 (Token.all d.text)).map
          (Leaf.renamedIf (· ∈ s.renamedLeaves symbol d) newName)
        (∀ e ∈ edits, e.newText = newName ∧
          d.text.slice e.span.start e.span.stop = symbol.simpleName) ∧
        (edits.Pairwise fun a b => a.span.stop ≤ b.span.start ∨ b.span.stop ≤ a.span.start) ∧
        TextEdit.applyAll d.text edits = .ok (Token.textOf tokens) ∧
        ((∀ t ∈ Token.all d.text, t.kind ≠ .error) → Token.all (Token.textOf tokens) = tokens) := by
  have home : symbol.uri = d₀.uri := ((sound.indexed d₀ held).sound.own symbol declared).1
  have loaded : (s.document? symbol.uri).isNone = false := by
    have := holds_of_mem held
    rw [holds, ← home] at this
    simpa using this
  have written : symbol.fromJson = false := by
    obtain ⟨t, tree⟩ := Option.isSome_iff_exists.mp idl
    obtain ⟨p, -, found, -⟩ := sound.declared_leaf held tree declared
    cases decl : symbol.decl with
    | none => simp [decl] at found
    | some id => simp [Symbol.fromJson, decl]
  obtain ⟨warnings, renamed⟩ := rename_ok s c valid written loaded
  rw [own] at renamed
  refine ⟨_, renamed, fun e mem => ?_, fun d mem => ?_⟩
  · rcases List.mem_cons.mp (List.mem_mergeSort.mp mem) with rfl | mem
    · exact ⟨d₀, held, home.symm⟩
    · obtain ⟨u, used, rfl⟩ := List.mem_map.mp mem
      obtain ⟨d, among, used⟩ := List.mem_flatMap.mp (List.mem_filter.mp used).1
      obtain ⟨r, -, rfl⟩ := List.mem_map.mp used
      exact ⟨d, List.mem_mergeSort.mp (List.mem_filter.mp among).1, rfl⟩
  · have here (same : d.uri = symbol.uri) : symbol ∈ d.table.symbols ∧ d.tree?.isSome := by
      rw [sound.eq_of_uri mem held (same.trans home)]
      exact ⟨declared, idl⟩
    have perm := sound.edits_perm mem here newName
    have leaves : Renames d.text symbol (s.renamedLeaves symbol d) := by
      cases tree : d.tree? with
      | none =>
        have none : s.renamedLeaves symbol d = [] := by simp [renamedLeaves, tree]
        rw [none]
        exact .nil ..
      | some t => exact sound.renames mem tree (fresh d mem t tree) fun same => (here same).1
    obtain ⟨apart, applied⟩ := leaves.applyAll_eq perm
    exact ⟨leaves.replaced_eq perm, apart, applied, leaves.all_eq valid⟩

/-- A record that is named in full, in backquotes and by its simple name. -/
def selfNamed : Document :=
  .read 1 "/a.avdl" .idl "namespace n; record A \x7b n.A x; `A` y; array<A> z; \x7d" {}

theorem rename_tokens_selfNamed :
    let s : Snapshot := { docs := [selfNamed] }
    let symbol : Symbol :=
      { name := "n.A", nameSpace := "n", kind := .record, uri := "/a.avdl", generation := 1,
        decl := some 12, span := ⟨13, 38⟩, nameSpan := ⟨20, 1⟩ }
    s.Sound ∧ (∀ d ∈ s.docs, ∀ t, d.tree? = some t → t.Fresh maxOffset) ∧
      (s.references {}).2 = s.meanings ∧ selfNamed ∈ s.docs ∧ selfNamed.tree?.isSome ∧
      symbol ∈ selfNamed.table.symbols ∧ nameProblem? "Node" = none ∧
      ∃ result, (s.rename {} symbol "Node").2 = .ok result ∧
        TextEdit.applyAll selfNamed.text (result.edits.filter (·.uri = selfNamed.uri)) =
          .ok "namespace n; record Node \x7b n.Node x; `Node` y; array<Node> z; \x7d" := by
  intro s symbol
  have sound : s.Sound := by
    constructor
    · exact List.nodup_singleton _
    · intro d mem
      rw [List.mem_singleton.mp mem]
      exact Document.read_indexed ..
  have fresh : ∀ d ∈ s.docs, ∀ t, d.tree? = some t → t.Fresh maxOffset := by
    intro d mem t tree
    have known : selfNamed.tree? = some (Tree.parse _ {}) := (Table.of_ofTree ..).tree
    rw [List.mem_singleton.mp mem, known, Option.some.injEq] at tree
    exact tree ▸ Tree.parse_fresh _ _
  have own : (s.references {}).2 = s.meanings := by decide +kernel
  have idl : selfNamed.tree?.isSome := by decide +kernel
  have declared : symbol ∈ selfNamed.table.symbols := by decide +kernel
  have valid : nameProblem? "Node" = none := by decide +kernel
  have spelled : Token.textOf ((located 0 (Token.all selfNamed.text)).map
      (Leaf.renamedIf (· ∈ s.renamedLeaves symbol selfNamed) "Node")) =
        "namespace n; record Node \x7b n.Node x; `Node` y; array<Node> z; \x7d" := by decide +kernel
  obtain ⟨result, renamed, -, documents⟩ :=
    rename_tokens sound fresh own List.mem_cons_self idl declared valid
  obtain ⟨-, -, applied, -⟩ := documents selfNamed List.mem_cons_self
  exact ⟨sound, fresh, own, List.mem_cons_self, idl, declared, valid, result, renamed, spelled ▸ applied⟩

/-- A letter is deleted after a malformed minus sign, so that the text has a number there. -/
def minusInfinity : List Event :=
  [.openDocument "/a.avdl" "record Infinity { -Infinityx y; }", .update "/a.avdl" ⟨27, 1, ""⟩]

/-- The tree keeps the sign and the name that stood there before, and so a part of the number is
renamed. -/
theorem rename_stale_leaf :
    let s := (Timeline.run {} minusInfinity).project.now
    let text : Bytes := "record Infinity { -Infinity y; }"
    let after : Bytes := "record N { -N y; }"
    let symbol : Symbol :=
      { name := "Infinity", nameSpace := [], kind := .record, uri := "/a.avdl", generation := 2,
        decl := some 10, span := ⟨0, 32⟩, nameSpan := ⟨7, 8⟩ }
    (s.document? "/a.avdl").map Document.text = some text ∧ symbol ∈ s.symbols "/a.avdl" ∧
      (s.references {}).2 = s.meanings ∧ (∀ t ∈ Token.all text, t.kind ≠ .error) ∧
      (∃ result, (s.rename {} symbol "N").2 = .ok result ∧
        TextEdit.applyAll text result.edits = .ok after) ∧
      (Token.all after).length ≠ (Token.all text).length := by
  intro s text after symbol
  refine ⟨by decide +kernel, by decide +kernel, by decide +kernel, by decide +kernel, ?_,
    by decide +kernel⟩
  have valid : nameProblem? "N" = none := by decide +kernel
  have loaded : (s.document? symbol.uri).isNone = false := by decide +kernel
  obtain ⟨warnings, renamed⟩ := rename_ok s {} valid rfl loaded
  refine ⟨_, renamed, ?_⟩
  have edits : ((s.references {}).2.filter (·.means symbol)).map (·.renamed "N") =
      [⟨"/a.avdl", ⟨19, 8⟩, "N"⟩] := by decide +kernel
  have sorted : TextEdit.sort [⟨"/a.avdl", ⟨7, 8⟩, "N"⟩, ⟨"/a.avdl", ⟨19, 8⟩, "N"⟩] =
      [⟨"/a.avdl", ⟨7, 8⟩, "N"⟩, ⟨"/a.avdl", ⟨19, 8⟩, "N"⟩] :=
    TextEdit.sort_eq (.refl _) (by simp)
  rw [edits, TextEdit.applyAll, sorted, sorted]
  decide +kernel

end Snapshot

end AvroIdl
