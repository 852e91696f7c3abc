import AvroIdl.Proofs.Parser.Replacement
import AvroIdl.Proofs.Tree.History

/-!
# Reading a part of a text again

A tree is fresh if it is what reading its text gives, but for the numbers and the stamps of its
nodes. After an edit one statement of a fresh tree may be read again. The new tree is fresh as well if
the statement still begins with the same token, whatever the text is and wherever the edit is:

* `Tree.Patch.form_eq`: one statement read again;
* `Tree.reparse_eq_parse`: one edit of a text that has been read;
* `Tree.revisions_eq_parse`: any number of edits and compactions.
-/

namespace AvroIdl

/-- The kind and the text of the token at an offset of a text. -/
def Token.lookAt (text : Bytes) (offset : Nat) : Option (TokenKind × Bytes) :=
  (Token.next? (text.drop offset)).map fun p => (p.1.kind, p.1.text)

/-- Texts that go on after an offset in the same way begin with a token there. -/
theorem Token.next?_of_lookAt {text text' : Bytes} {offset : Nat}
    (same : lookAt text offset = lookAt text' offset) (more : text'.drop offset ≠ []) :
    ∃ t t' z z', next? (text.drop offset) = some (t, z) ∧
      next? (text'.drop offset) = some (t', z') ∧ t'.kind = t.kind ∧ t'.text = t.text := by
  cases found' : next? (text'.drop offset) with
  | none => exact absurd (next?_eq_none found') more
  | some q' =>
    rw [lookAt, lookAt, found', Option.map_some, Option.map_eq_some_iff] at same
    obtain ⟨q, found, eq⟩ := same
    obtain ⟨kind, text⟩ := Prod.mk.inj eq
    exact ⟨q.1, q'.1, q.2, q'.2, found, rfl, kind.symm, text.symm⟩

namespace Element

theorem form_eq_of_bare {e e' : Element} (same : e.relabel Label.bare = e'.relabel Label.bare) :
    e.form = e'.form := by
  have struck (e : Element) : (e.relabel Label.bare).form = e.form := relabel_relabel ..
  rw [← struck e, same, struck e']

mutual

/-- Widths and marks are determined by what is in a node. -/
theorem bare_eq_of_form {e e' : Element} (same : e.form = e'.form) (he : e.All Measured)
    (he' : e'.All Measured) (marked : e.All Marked) (marked' : e'.All Marked) :
    e.relabel Label.bare = e'.relabel Label.bare := by
  cases e with
  | leaf t =>
    cases e' with
    | leaf t' => exact same
    | node => simp at same
  | node l children =>
    cases e' with
    | leaf => simp at same
    | node l' children' =>
      rw [form_node, form_node] at same
      obtain ⟨label, inside⟩ := Element.node.inj same
      have below := bareOf_eq_of_form inside he.2 he'.2 marked.2 marked'.2
      simp only [Label.form, Label.mk.injEq, true_and] at label
      have width : l.width = l'.width := by
        rw [he.1, he'.1, ← widthOf_relabelOf (f := Label.bare) (fun _ => rfl) children, below,
          widthOf_relabelOf (f := Label.bare) fun _ => rfl]
      have hasError : l.hasError = l'.hasError := by
        rw [marked.1, marked'.1, label.1,
          ← any_hasError_relabelOf (f := Label.bare) (fun _ => rfl) children, below,
          any_hasError_relabelOf (f := Label.bare) fun _ => rfl]
      simp [relabel, Label.bare, below, label, width, hasError]

theorem bareOf_eq_of_form {es es' : List Element} (same : es.map form = es'.map form)
    (he : AllOf Measured es) (he' : AllOf Measured es') (marked : AllOf Marked es)
    (marked' : AllOf Marked es') : relabelOf Label.bare es = relabelOf Label.bare es' := by
  cases es with
  | nil =>
    obtain rfl : es' = [] := List.map_eq_nil_iff.mp same.symm
    rfl
  | cons e rest =>
    obtain ⟨e', rest', rfl, first, others⟩ := List.map_eq_cons_iff.mp same.symm
    rw [relabelOf, relabelOf, bare_eq_of_form first.symm he.1 he'.1 marked.1 marked'.1,
      bareOf_eq_of_form others.symm he.2 he'.2 marked.2 marked'.2]

end

end Element

namespace Hole

open Element

/-- A node has its place in every tree that looks the same. -/
theorem exists_fill_of_form {e root : Element} {holes : List Hole}
    (same : (fill e holes).form = root.form) :
    ∃ e' holes', root = fill e' holes' ∧ e'.form = e.form ∧ holes'.map Hole.form = holes.map Hole.form := by
  induction holes generalizing e with
  | nil => exact ⟨root, [], rfl, same.symm, rfl⟩
  | cons hole outer ih =>
    obtain ⟨e₁, outer', rfl, around, others⟩ := ih same
    rw [plug, form_node, children, List.map_append, List.map_cons] at around
    cases e₁ with
    | leaf => simp at around
    | node l inside =>
      rw [form_node] at around
      obtain ⟨label, parts⟩ := Element.node.inj around
      obtain ⟨before, rest, rfl, hb, hr⟩ := List.map_eq_append_iff.mp parts
      obtain ⟨e', after, rfl, he, ha⟩ := List.map_eq_cons_iff.mp hr
      exact ⟨e', ⟨l, before, after⟩ :: outer', rfl, he, by simp [Hole.form, label, hb, ha, others]⟩

/-- What looks the same has the same tokens around a node, and the same kinds of nodes. -/
theorem same_of_form {holes holes' : List Hole} (same : holes'.map Hole.form = holes.map Hole.form) :
    front holes' = front holes ∧ back holes' = back holes ∧
      holes'.map (·.label.kind) = holes.map (·.label.kind) := by
  induction holes generalizing holes' with
  | nil =>
    obtain rfl : holes' = [] := List.map_eq_nil_iff.mp same
    exact ⟨rfl, rfl, rfl⟩
  | cons hole outer ih =>
    obtain ⟨hole', outer', rfl, first, others⟩ := List.map_eq_cons_iff.mp same
    obtain ⟨before, after, kinds⟩ := ih others
    simp only [Hole.form, Hole.mk.injEq] at first
    obtain ⟨label, hb, ha⟩ := first
    have kind : hole'.label.kind = hole.label.kind := by
      simp only [Label.form, Label.mk.injEq] at label
      exact label.2.1
    exact ⟨by rw [front, front, before, tokensOf_of_form hb],
      by rw [back, back, after, tokensOf_of_form ha], by rw [List.map_cons, List.map_cons, kind, kinds]⟩

/-- Nodes that are made anew look the same. -/
theorem form_renew (generation : UInt64) (edit : Edit) (nodes : Nat) (e : Element)
    (holes : List Hole) :
    (renew generation edit nodes e holes).map Hole.form = holes.map Hole.form := by
  induction holes generalizing nodes e with
  | nil => rfl
  | cons hole outer ih => simp [renew, ih, Hole.form, anew, Label.form]

theorem kinds_path (e : Element) (holes : List Hole) :
    (path e holes).map Node.kind = holes.map (·.label.kind) := by
  induction holes generalizing e with
  | nil => rfl
  | cons hole outer ih => simp [path, ih, Node.kind]

end Hole

/-- A step reads texts up to a size. -/
def Revision.limitedTo (limit : Nat) : Revision → Prop
  | edit _ opts => opts.maxSize = limit
  | compact => True

namespace Tree

open Element

/-- Reading a text that is not too long gives a root around what the parser has read. -/
theorem element_parse {opts : ParseOptions} {text : Bytes} (fits : text.length ≤ opts.maxSize)
    (small : text.length ≤ maxOffset) :
    ∃ label : Label, label.kind = .document ∧ label.name = none ∧ label.error = none ∧
      (parse text opts).element =
        .node label (Reading.documentEnd {} opts.generation text).elements := by
  rw [parse, parseIn_eq {} fits small]
  exact ⟨_, rfl, rfl, rfl, rfl⟩

/-- A tree with statements is not that of a text that is too long. -/
theorem fits_of_standsAlone {opts : ParseOptions} {text : Bytes}
    (h : ¬ (parse text opts).element.All fun l _ => l.kind.standsAlone = false) :
    text.length ≤ opts.maxSize ∧ text.length ≤ maxOffset := by
  by_contra long
  refine h ?_
  rw [parse, parseIn, if_pos (by simp only [Bool.or_eq_true, decide_eq_true_eq]; omega)]
  simp [tooLong, element, All, AllOf, NodeKind.standsAlone]

/-- A tree is what reading its text gives, but for numbers and stamps. The limit is the size of the
largest text that is read. -/
def Fresh (limit : Nat) (t : Tree) : Prop :=
  t.element.relabel Label.bare =
    (parse t.text { maxSize := limit }).element.relabel Label.bare

namespace Patch

variable {generation : UInt64} {edit : Edit} {text : Bytes} {nodes limit : Nat} {t : Tree}
  {n : Node} {tree : Tree}

/-- A text in which a statement is read again is not too long. -/
theorem fits (p : Patch generation edit text nodes t.element n tree) (fresh : t.Fresh limit) :
    t.text.length ≤ limit ∧ t.text.length ≤ maxOffset := by
  have statement : ¬ (parse t.text { maxSize := limit }).element.All
      fun l _ => l.kind.standsAlone = false := fun plain => by
    rw [← all_iff_of_relabel fresh fun _ _ => Iff.rfl] at plain
    have alone := p.alone
    rw [Node.kind, (Hole.all_fill (p.filled_all plain)).1] at alone
    contradiction
  exact fits_of_standsAlone statement

/-- The place of the statement in the tree that reading the text gives, and the way through the text
past it. -/
structure Place (p : Patch generation edit text nodes t.element n tree) where
  label : Label
  l : Label
  children : List Element
  holes : List Hole
  r₀ : Reading
  r₁ : Reading
  last : Reading
  root : label.kind = .document ∧ label.name = none ∧ label.error = none
  passes : (Reading.document {} 1 t.text).Passes r₀ r₁ last p.body l children
  whole : Hole.fill (.node l children) holes = .node label last.machine.elements
  nodup : (Hole.fill (.node l children) holes).ids.Nodup
  inside : holes ≠ []
  around : holes.map Hole.form = p.holes.map Hole.form
  within : children.map Element.form = n.children.map Element.form
  blocks : r₀.machine.blocks = (Hole.path n.element p.holes).countP fun a => a.kind.hasBlock
  all : Token.all t.text = Hole.front p.holes ++ tokensOf n.children ++ Hole.back p.holes

theorem exists_place (p : Patch generation edit text nodes t.element n tree)
    (fresh : t.Fresh limit) : Nonempty p.Place := by
  obtain ⟨fits, small⟩ := p.fits fresh
  obtain ⟨label, kind, name, error, parsed⟩ : ∃ label : Label, label.kind = .document ∧
      label.name = none ∧ label.error = none ∧ (parse t.text { maxSize := limit }).element =
        .node label (Reading.documentEnd {} 1 t.text).elements := element_parse fits small
  have nodup : (parse t.text { maxSize := limit }).element.ids.Nodup := (parseIn_lossless ..).nodup
  have looks := form_eq_of_bare fresh
  rw [← p.whole, parsed] at looks
  obtain ⟨e, holes, whole, form, around⟩ := Hole.exists_fill_of_form looks
  obtain ⟨front, back, kinds⟩ := Hole.same_of_form around
  obtain ⟨l, children, rfl⟩ : ∃ l children, e = .node l children := by
    cases e with
    | leaf => simp [Node.element] at form
    | node l children => exact ⟨l, children, rfl⟩
  rw [form_node, Node.element, form_node] at form
  obtain ⟨outer, within⟩ := Element.node.inj form
  have alone : l.kind.standsAlone = true := by
    simp only [Label.form, Label.mk.injEq] at outer
    rw [outer.2.1]
    exact p.alone
  obtain ⟨r₀, r₁, last, body, passes, ends, hbody, blocks⟩ :=
    Reading.exists_passes whole.symm kind alone
  have inside : holes ≠ [] := by
    rintro rfl
    simp at hbody
  rw [kinds, ← Hole.kinds_path n.element] at hbody blocks
  obtain rfl : p.body = body := by
    have parent := p.parent
    rw [List.head?_map, Option.bind_map] at hbody
    exact Option.some.inj (parent.symm.trans hbody)
  have all : Token.all t.text = Hole.front p.holes ++ tokensOf n.children ++ Hole.back p.holes := by
    obtain ⟨_, _, _, _, tokens⟩ := Machine.document_reaches {} 1 t.text
    calc Token.all t.text = (Element.node label (Reading.documentEnd {} 1 t.text).elements).tokens :=
          tokens.symm
      _ = Hole.front holes ++ tokensOf children ++ Hole.back holes := by
          rw [whole, Hole.tokens_fill, Element.tokens]
      _ = _ := by rw [front, back, tokensOf_of_form within]
  refine ⟨⟨label, l, children, holes, r₀, r₁, last, ⟨kind, name, error⟩, passes, ?_, ?_, inside, around,
    within, ?_, all⟩⟩
  · rw [← whole, ends]
  · rw [← whole, ← parsed]
    exact nodup
  · rw [blocks, List.countP_map]
    rfl

/-- Before and after the edit the statement has tokens, and those after it stay. -/
theorem tokens (p : Patch generation edit text nodes t.element n tree) (lossless : t.Lossless)
    (applied : edit.apply t.text = .ok text)
    (all : Token.all t.text = Hole.front p.holes ++ tokensOf n.children ++ Hole.back p.holes) :
    tokensOf n.children ≠ [] ∧ tokensOf p.inside ≠ [] ∧
      Token.all (text.drop n.start) = tokensOf p.inside ++ Hole.back p.holes := by
  obtain ⟨start, old, new⟩ := p.texts lossless applied
  have around := p.around
  simp only [Node.surrounds, Bool.and_eq_true, decide_eq_true_eq] at around
  obtain ⟨read, _, hwidth, _⟩ := Node.replacement?_eq_some p.read
  obtain ⟨made, _, _, more, tokens⟩ := Node.rereadAs_made read
  refine ⟨fun none => ?_, fun none => ?_, ?_⟩
  · have measured := Hole.all_fill (p.filled_all (p.measured lossless))
    have width : n.label.width = n.element.text.length := width_eq measured
    rw [Node.element, Element.text, textOf_eq_tokens, none] at width
    simp only [Token.textOf_nil, List.length_nil] at width
    omega
  · have width : p.label.width = (textOf p.inside).length :=
      made.1.1.trans (widthOf_eq (made.imp fun _ _ h _ => h.1).2)
    rw [textOf_eq_tokens, none, hwidth] at width
    simp only [Token.textOf_nil, List.length_nil, Edit.resize] at width
    omega
  · -- What follows the statement is the same text, and so the same tokens.
    have rest := congrArg (List.drop n.start) new
    rw [List.append_assoc, List.drop_left' start] at rest
    have after := Token.all_drop tokens
    have before := Token.all_drop all
    rw [rest, textOf_eq_tokens, List.drop_left] at after
    rw [old, Node.element, Element.text, textOf_eq_tokens, ← Token.textOf_append, List.drop_left]
      at before
    rw [tokens, ← after, before]

/-- One statement read again: if it begins with the same token as before, the tree is what reading
the whole text gives. -/
theorem form_eq (p : Patch generation edit text nodes t.element n tree) (lossless : t.Lossless)
    (fresh : t.Fresh limit) (applied : edit.apply t.text = .ok text)
    (same : Token.lookAt t.text n.start = Token.lookAt text n.start) {opts : ParseOptions}
    (fits : text.length ≤ opts.maxSize) (small : text.length ≤ maxOffset) :
    tree.element.form = (parse text opts).element.form := by
  obtain ⟨q⟩ := p.exists_place fresh
  obtain ⟨front, back, -⟩ := Hole.same_of_form q.around
  have within := tokensOf_of_form q.within
  obtain ⟨start, old, new⟩ := p.texts lossless applied
  obtain ⟨full, full', all'⟩ := p.tokens lossless applied q.all
  obtain ⟨t₀, t₁, z₀, z₁, first, first', kind, spelled⟩ := Token.next?_of_lookAt same (by
    intro none
    rw [none, Token.all_nil] at all'
    simp [full'] at all')
  -- In both texts the statement follows the same tokens.
  have split {s rest : Bytes} (h : s = Token.textOf (Hole.front p.holes) ++ rest) :
      s = Token.textOf (Hole.front q.holes) ++ s.drop n.start := by
    have tail : s.drop n.start = rest := by rw [h, List.drop_left' start]
    rw [front, tail, h]
  obtain ⟨read, -⟩ := Node.replacement?_eq_some p.read
  have replaced := q.passes.replace q.whole q.nodup q.inside (by rw [q.all, front, back, within])
    (by rwa [within]) (split (old.trans (List.append_assoc ..))) first first' kind spelled
    (by rw [q.blocks]; exact read) (by rw [back, all']) full'
  rw [← split (new.trans (List.append_assoc ..))] at replaced
  obtain ⟨label', kind', name', error', parsed⟩ := element_parse fits small
  have root : q.label.form = label'.form := by
    simp [Label.form, q.root, kind', name', error']
  calc tree.element.form = (Hole.fill (.node p.label p.inside) q.holes).form := by
        rw [p.filled]
        exact Hole.form_fill rfl ((Hole.form_renew ..).trans q.around.symm)
    _ = (parse text opts).element.form := by
        rw [← replaced, parsed, form_node, form_node, root,
          Reading.form_documentEnd {} {} _ opts.generation]

end Patch

/-- Trees that look the same are the same, but for numbers and stamps. -/
theorem bare_eq {t t' : Tree} (h : t.Lossless) (h' : t'.Lossless) (fits : t.text.length ≤ maxOffset)
    (fits' : t'.text.length ≤ maxOffset) (same : t.element.form = t'.element.form) :
    t.element.relabel Label.bare = t'.element.relabel Label.bare :=
  bare_eq_of_form same (h.width fits).1 (h'.width fits').1 h.marked h'.marked

/-- The generation makes no difference to what is read. -/
theorem bare_parse (text : Bytes) {opts opts' : ParseOptions} (same : opts.maxSize = opts'.maxSize) :
    (parse text opts).element.relabel Label.bare = (parse text opts').element.relabel Label.bare := by
  by_cases fits : text.length ≤ opts.maxSize ∧ text.length ≤ maxOffset
  · have text_eq (opts : ParseOptions) : (parse text opts).text = text := text_parseIn ..
    obtain ⟨label, kind, name, error, parsed⟩ := element_parse fits.1 fits.2
    obtain ⟨label', kind', name', error', parsed'⟩ := element_parse (same ▸ fits.1) fits.2
    refine bare_eq (parseIn_lossless ..) (parseIn_lossless ..) (by rw [text_eq]; exact fits.2)
      (by rw [text_eq]; exact fits.2) ?_
    rw [parsed, parsed', form_node, form_node, Reading.form_documentEnd {} {} _ opts'.generation]
    simp [Label.form, kind, kind', name, name', error, error']
  · have long (opts' : ParseOptions) (eq : opts.maxSize = opts'.maxSize) :
        parse text opts' = tooLong {} opts' text := by
      rw [parse, parseIn, if_pos (by simp only [Bool.or_eq_true, decide_eq_true_eq]; omega)]
    rw [long opts rfl, long opts' same]
    simp [tooLong, element, relabel, relabelOf, Label.bare, same]

/-- Only a text that is not too long is read in part. -/
theorem reparse_fits {t : Tree} {edit : Edit} {opts : ParseOptions} {r : Reparsed} {text : Bytes}
    (h : t.reparse edit opts = .ok r) (partly : r.full = false)
    (applied : edit.apply t.text = .ok text) : text.length ≤ opts.maxSize := by
  unfold reparse at h
  simp only [applied, bind, Except.bind] at h
  split at h
  next found =>
    split_ifs at found with fits
    exact fits
  next =>
    obtain rfl := Except.ok.inj h
    contradiction

/-- After an edit a fresh tree is fresh again, if the statement that is read again still begins with
the same token. -/
theorem reparse_bare {t : Tree} {edit : Edit} {opts : ParseOptions} {r : Reparsed} {text : Bytes}
    {limit : Nat} (h : t.reparse edit opts = .ok r) (lossless : t.Lossless) (fresh : t.Fresh limit)
    (small : opts.maxSize ≤ maxOffset) (applied : edit.apply t.text = .ok text)
    (keeps : r.full = false → Token.lookAt t.text r.span.start = Token.lookAt text r.span.start) :
    r.tree.element.relabel Label.bare = (parse text opts).element.relabel Label.bare := by
  obtain ⟨text', applied', ⟨_, eq⟩ | ⟨partly, n, tree, ⟨p⟩, _, start, eq⟩⟩ := reparse_cases h lossless
  · obtain rfl : text' = text := Except.ok.inj (applied'.symm.trans applied)
    rw [eq]
    exact bare_parse text' rfl
  · obtain rfl : text' = text := Except.ok.inj (applied'.symm.trans applied)
    have fits := reparse_fits h partly applied
    have form := p.form_eq lossless fresh applied (start ▸ keeps partly) fits (by omega)
    have bare : tree.element.relabel Label.bare = _ :=
      bare_eq (p.lossless lossless applied (Nat.le_refl _)) (parseIn_lossless ..)
        (by rw [p.text_eq]; omega) (by rw [text_parseIn]; omega) form
    rcases eq with eq | eq
    · rw [eq, bare]
      rfl
    · rw [eq, relabel_compact (fun _ _ => rfl), bare]
      rfl

theorem parse_fresh (text : Bytes) (opts : ParseOptions) : (parse text opts).Fresh opts.maxSize := by
  rw [Fresh, show (parse text opts).text = text from text_parseIn ..]
  exact bare_parse text rfl

/-- Trees that are the same but for numbers and stamps report the same errors. -/
theorem diagnostics_of_bare {t t' : Tree}
    (same : t.element.relabel Label.bare = t'.element.relabel Label.bare) :
    t.diagnostics = t'.diagnostics := by
  rw [diagnostics, ← diagnosticsFrom_bare, same, diagnosticsFrom_bare]
  rfl

/-- A text may be malformed in any way, and the edit may be anywhere in it. If the whole text is read
again, or a statement whose first token is the same as before, the tree is the one that the edited
text has, but for numbers and stamps. -/
theorem reparse_eq_parse {text text' : Bytes} {opts opts' : ParseOptions} {edit : Edit}
    {r : Reparsed} (applied : edit.apply text = .ok text') (small : opts'.maxSize ≤ maxOffset)
    (read : (parse text opts).reparse edit opts' = .ok r)
    (same : r.full = false →
      Token.lookAt text r.span.start = Token.lookAt text' r.span.start) :
    r.tree.text = text' ∧
      r.tree.element.relabel Label.bare = (parse text' opts').element.relabel Label.bare ∧
      r.tree.diagnostics = (parse text' opts').diagnostics := by
  have text_eq : (parse text opts).text = text := text_parseIn ..
  have lossless : (parse text opts).Lossless := parseIn_lossless ..
  have bare := reparse_bare read lossless (parse_fresh text opts) small (by rwa [text_eq])
    (by rwa [text_eq])
  have applied' := (reparse_lossless read lossless).2
  rw [text_eq, applied] at applied'
  exact ⟨(Except.ok.inj applied').symm, bare, diagnostics_of_bare bare⟩

/-- A name is made longer in a field that follows a malformed one and begins with a keyword. -/
theorem reparse_eq_parse_field :
    let text : Bytes := "record R { a b c record x; }"
    let text' : Bytes := "record R { a b c record xy; }"
    ∃ r, (parse text).reparse ⟨25, 0, "y"⟩ = .ok r ∧ r.full = false ∧ r.span = ⟨17, 10⟩ ∧
      r.tree.text = text' ∧
      r.tree.element.relabel Label.bare = (parse text').element.relabel Label.bare := by
  intro text text'
  obtain ⟨r, read⟩ := (reparse_isOk (parse text) ⟨25, 0, "y"⟩ {}).mpr (by decide +kernel)
  have outcome : ((parse text).reparse ⟨25, 0, "y"⟩).toOption.map (fun r => (r.full, r.span)) =
      some (false, ⟨17, 10⟩) := by decide +kernel
  simp only [read, Except.toOption, Option.map_some, Option.some.injEq, Prod.mk.injEq] at outcome
  obtain ⟨partly, span⟩ := outcome
  have applied : Edit.apply ⟨25, 0, "y"⟩ text = .ok text' := by decide
  obtain ⟨text_eq, bare, -⟩ := reparse_eq_parse applied (Nat.le_refl _) read fun _ => by
    rw [span]
    decide +kernel
  exact ⟨r, read, partly, span, text_eq, bare⟩

/-! ## Histories -/

/-- Whether a step reads the whole text again, or a statement that begins with the same token as
before, or nothing. -/
def keepsFirst (t : Tree) : Revision → Bool
  | .edit edit opts =>
    match t.reparse edit opts with
    | .ok r =>
      r.full || Token.lookAt t.text r.span.start = Token.lookAt r.tree.text r.span.start
    | .error _ => true
  | .compact => true

/-- Whether all steps of a history do so. -/
def keepsFirstAll (t : Tree) : List Revision → Bool
  | [] => true
  | step :: rest => t.keepsFirst step && (t.revise step).keepsFirstAll rest

theorem revise_fresh {t : Tree} {limit : Nat} (lossless : t.Lossless) (fresh : t.Fresh limit)
    (small : limit ≤ maxOffset) {step : Revision} (limited : step.limitedTo limit)
    (keeps : t.keepsFirst step = true) : (t.revise step).Fresh limit := by
  cases step with
  | compact =>
    rw [revise, Fresh, relabel_compact fun _ _ => rfl]
    exact fresh
  | edit edit opts =>
    simp only [revise]
    cases read : t.reparse edit opts with
    | error e => exact fresh
    | ok r =>
      obtain rfl : opts.maxSize = limit := limited
      simp only [keepsFirst, read, Bool.or_eq_true, decide_eq_true_eq] at keeps
      have applied := (reparse_lossless read lossless).2
      have bare := reparse_bare read lossless fresh small applied fun partly => by
        rw [partly] at keeps
        exact keeps.resolve_left (by simp)
      exact bare.trans (bare_parse _ rfl)

theorem revisions_fresh {t : Tree} {limit : Nat} (lossless : t.Lossless) (fresh : t.Fresh limit)
    (small : limit ≤ maxOffset) {steps : List Revision}
    (limited : ∀ step ∈ steps, step.limitedTo limit) (keeps : t.keepsFirstAll steps = true) :
    (t.revisions steps).Fresh limit := by
  induction steps generalizing t with
  | nil => exact fresh
  | cons step rest ih =>
    rw [keepsFirstAll, Bool.and_eq_true] at keeps
    exact ih (revise_lossless lossless step).1
      (revise_fresh lossless fresh small (limited step List.mem_cons_self) keeps.1)
      (fun s mem => limited s (.tail _ mem)) keeps.2

/-- However a document is edited and compacted, its tree is the one that its text has when all of it
is read, as long as no statement that is read again begins with another token than before. -/
theorem revisions_eq_parse (text : Bytes) (opts : ParseOptions) (small : opts.maxSize ≤ maxOffset)
    (steps : List Revision) (limited : ∀ step ∈ steps, step.limitedTo opts.maxSize)
    (keeps : (parse text opts).keepsFirstAll steps = true) :
    let t := (parse text opts).revisions steps
    let text' := steps.foldl Revision.apply text
    t.text = text' ∧
      t.element.relabel Label.bare = (parse text' opts).element.relabel Label.bare ∧
      t.diagnostics = (parse text' opts).diagnostics := by
  intro t text'
  have lossless : (parse text opts).Lossless := parseIn_lossless ..
  have text_eq : t.text = text' := by
    rw [(revisions_lossless lossless steps).2, show (parse text opts).text = text from text_parseIn ..]
  have fresh := revisions_fresh lossless (parse_fresh text opts) small limited keeps
  have bare : t.element.relabel Label.bare = (parse text' opts).element.relabel Label.bare := by
    rw [← text_eq]
    exact fresh.trans (bare_parse _ rfl)
  exact ⟨text_eq, bare, diagnostics_of_bare bare⟩

/-- A name is made longer, the tree is moved, and the field is joined to the malformed one before. -/
theorem revisions_eq_parse_fields :
    let text : Bytes := "record R { a b c record x; int y }"
    let steps : List Revision := [.edit ⟨25, 0, "y"⟩ {}, .compact, .edit ⟨13, 13, "d"⟩ {}]
    let t := (parse text).revisions steps
    (parse text).keepsFirstAll steps = true ∧ t.text = "record R { a d; int y }" ∧
      t.element.relabel Label.bare =
        (parse "record R { a d; int y }").element.relabel Label.bare := by
  intro text steps t
  have keeps : (parse text).keepsFirstAll steps = true := by decide +kernel
  have after : steps.foldl Revision.apply text = "record R { a d; int y }" := by decide
  obtain ⟨text_eq, bare, -⟩ := revisions_eq_parse text {} (Nat.le_refl _) steps
    (by simp [steps, Revision.limitedTo]) keeps
  rw [after] at text_eq bare
  exact ⟨keeps, text_eq, bare⟩

/-- The first token of a statement must stay: a keyword ends the malformed statement before it, and a
name does not. -/
theorem reparse_keyword_to_name :
    let text : Bytes := "record R { a b c record x y; }"
    let text' : Bytes := "record R { a b c reczord x y; }"
    ∃ r, (parse text).reparse ⟨20, 0, "z"⟩ = .ok r ∧ r.tree.text = text' ∧
      r.tree.diagnostics.length = 2 ∧ (parse text').diagnostics.length = 1 := by
  intro text text'
  obtain ⟨r, read⟩ := (reparse_isOk (parse text) ⟨20, 0, "z"⟩ {}).mpr (by decide +kernel)
  have outcome : ((parse text).reparse ⟨20, 0, "z"⟩).toOption.map
      (fun r => (r.tree.text, r.tree.diagnostics.length)) = some (text', 2) := by decide +kernel
  simp only [read, Except.toOption, Option.map_some, Option.some.injEq, Prod.mk.injEq] at outcome
  exact ⟨r, read, outcome.1, outcome.2, by decide +kernel⟩

end Tree

end AvroIdl
