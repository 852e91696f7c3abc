import AvroIdl.Proofs.Refactor.InTurn
import AvroIdl.Proofs.Tree.Innermost
import AvroIdl.Refactor.Delete

/-!
# What a deletion takes

A declaration is deleted together with the doc comment in front of it. The comment is looked for leaf
by leaf, back from the start of the declaration, and each step asks the tree for the leaf at an
offset.

* `Tree.Reads`: before a place, a tree answers with its tokens, one after the other;
* `Tree.WalksBack`: the walk back over spaces and line ends, without a bound on its length. It always
  ends, `Tree.Reads.walksBack`, and it ends at the nearest token that is neither,
  `Tree.WalksBack.found_eq`;
* `Tree.Deletes`: what goes with a node and what stays;
* `Tree.deletion_exact`: every deletion in a tree that a document ever has is of this form.
-/

namespace AvroIdl

open Token (textOf)

/-- Whether tokens of this kind only keep other tokens apart. -/
def TokenKind.isBlank : TokenKind → Bool
  | space | newline => true
  | _ => false

theorem TokenKind.isBlank_eq (k : TokenKind) : (k = .space || k = .newline) = k.isBlank := by
  cases k <;> rfl

namespace Token

/-- The last of some tokens that is neither a space nor a line end. -/
def lastVisible? (ts : List Token) : Option Token := ts.reverse.find? fun s => !s.kind.isBlank

/-- Whether the token after some tokens begins a line. -/
def EndLine (ts : List Token) : Prop := ∀ s, ts.getLast? = some s → s.kind = .newline

/-- The indentation of what follows: a space that begins a line, if there is one. -/
structure Indents (kept indent : List Token) : Prop where
  single : indent.length ≤ 1
  begins : ∀ s ∈ indent, s.kind = .space ∧ EndLine kept
  none_left : indent = [] → ∀ before s, kept = before ++ [s] → s.kind = .space → ¬ EndLine before

/-- A doc comment after the tokens that are kept, with its indentation and with what stands between it
and the declaration. -/
structure DocBlock (kept indent : List Token) (doc : Token) (blanks : List Token) : Prop where
  indents : Indents kept indent
  comment : doc.kind = .docComment
  blank : ∀ s ∈ blanks, s.kind.isBlank = true

theorem lastVisible?_of_blank {ts : List Token} (blank : ∀ s ∈ ts, s.kind.isBlank = true) :
    lastVisible? ts = none := by
  rw [lastVisible?, List.find?_eq_none]
  intro s mem
  simp [blank s (List.mem_reverse.mp mem)]

theorem lastVisible?_eq {before blanks : List Token} {s : Token} (visible : s.kind.isBlank = false)
    (blank : ∀ s ∈ blanks, s.kind.isBlank = true) :
    lastVisible? (before ++ s :: blanks) = some s := by
  have none : lastVisible? blanks = none := lastVisible?_of_blank blank
  rw [lastVisible?] at none ⊢
  rw [List.reverse_append, List.reverse_cons, List.append_assoc, List.find?_append, none]
  simp [visible]

/-- No token is empty. -/
theorem always_filled : Always fun s => s.text ≠ [] := ⟨fun _ _ => text_ne_nil, fun _ some => some⟩

theorem endLine_nil : EndLine [] := by simp [EndLine]

theorem endLine_append (ts : List Token) (s : Token) : EndLine (ts ++ [s]) ↔ s.kind = .newline := by
  simp [EndLine]

end Token

/-! ## Where nodes stand -/

namespace Element

mutual

/-- A node of an element stands among its tokens. -/
theorem split_of_mem_nodesFrom {e : Element} (h : e.All Measured) {start : Nat} {n : Node}
    (mem : n ∈ e.nodesFrom start) :
    ∃ before after, e.tokens = before ++ n.element.tokens ++ after ∧
      n.start = start + (Token.textOf before).length := by
  cases e with
  | leaf t => contradiction
  | node l children =>
    rcases List.mem_cons.mp mem with rfl | mem
    · exact ⟨[], [], by simp [Node.element], rfl⟩
    · exact split_of_mem_nodesAmong h.2 mem

theorem split_of_mem_nodesAmong {es : List Element} (h : AllOf Measured es) {start : Nat} {n : Node}
    (mem : n ∈ nodesAmong start es) :
    ∃ before after, tokensOf es = before ++ n.element.tokens ++ after ∧
      n.start = start + (Token.textOf before).length := by
  cases es with
  | nil => contradiction
  | cons e rest =>
    rw [tokensOf]
    rcases List.mem_append.mp mem with first | later
    · obtain ⟨before, after, split, place⟩ := split_of_mem_nodesFrom h.1 first
      exact ⟨before, after ++ tokensOf rest, by rw [split]; simp, place⟩
    · obtain ⟨before, after, split, place⟩ := split_of_mem_nodesAmong h.2 later
      refine ⟨e.tokens ++ before, after, by rw [split]; simp, ?_⟩
      rw [place, width_eq h.1, text_eq_tokens, Token.textOf_append, List.length_append, Nat.add_assoc]

end

end Element

namespace Tree

/-! ## The walk back -/

/-- The leaves of a tree before an offset are some tokens, none of which is empty. -/
def Reads (t : Tree) (ts : List Token) : Prop :=
  ∀ before s after, ts = before ++ s :: after → s.text ≠ [] ∧
    t.leafBefore? (textOf (before ++ [s])).length = some ⟨(textOf before).length, s⟩

/-- What is found on the way back from an offset over all spaces and line ends, however many there
are. -/
inductive WalksBack (t : Tree) : Nat → Option Leaf → Prop
  | start {offset : Nat} (first : t.leafBefore? offset = none) : WalksBack t offset none
  | found {offset : Nat} {leaf : Leaf} (here : t.leafBefore? offset = some leaf)
      (visible : leaf.kind.isBlank = false) : WalksBack t offset (some leaf)
  | past {offset : Nat} {leaf : Leaf} {found : Option Leaf} (here : t.leafBefore? offset = some leaf)
      (blank : leaf.kind.isBlank = true) (rest : WalksBack t leaf.start found) :
      WalksBack t offset found

variable {t : Tree}

/-- A tree whose widths are right answers with its tokens. -/
theorem reads_of_measured (measured : t.element.All Element.Measured)
    (some : ∀ s ∈ t.element.tokens, s.text ≠ []) {ts others : List Token}
    (split : t.element.tokens = ts ++ others) : t.Reads ts := by
  intro before s after eq
  rw [eq, List.append_assoc, List.cons_append] at split
  have nonempty : s.text ≠ [] := some s (by rw [split]; simp)
  have located : (⟨(textOf before).length, s⟩ : Leaf) ∈ Leaf.located 0 t.element.tokens := by
    rw [split, Leaf.located_append, Leaf.located, Nat.zero_add]
    exact List.mem_append_right _ List.mem_cons_self
  rw [← Element.leafPaths_eq measured 0 [], List.mem_map] at located
  obtain ⟨p, mem, leaf⟩ := located
  have size : (textOf (before ++ [s])).length = (textOf before).length + s.text.length := by
    simp [List.length_append]
  have positive := List.length_pos_of_ne_nil nonempty
  have here : p.1.Contains ((textOf (before ++ [s])).length - 1) := by
    rw [leaf, Leaf.Contains, Leaf.text]
    dsimp only
    omega
  refine ⟨nonempty, ?_⟩
  rw [leafBefore?, if_neg (by omega), leafAt?_eq measured mem here, Option.map_some, leaf]

theorem Reads.front {ts others : List Token} (h : t.Reads (ts ++ others)) : t.Reads ts := by
  intro before s after eq
  exact h before s (after ++ others) (by rw [eq]; simp)

theorem reads_nil (t : Tree) : t.Reads [] := by
  intro before s after eq
  simp at eq

theorem leafBefore?_zero (t : Tree) : t.leafBefore? 0 = none := rfl

/-- The walk comes to an end, and the bound of `visibleBefore?` does not cut it short: every step
takes at least one byte. -/
theorem Reads.walksBack {ts : List Token} (reads : t.Reads ts) {bound : Nat}
    (enough : (textOf ts).length ≤ bound) :
    t.WalksBack (textOf ts).length (t.visibleBefore? bound (textOf ts).length) := by
  -- The last token is taken off first, as on the walk.
  induction ts using List.reverseRecOn generalizing bound with
  | nil =>
    have none : t.visibleBefore? bound 0 = none := by
      cases bound <;> simp [visibleBefore?, leafBefore?_zero]
    rw [Token.textOf_nil, List.length_nil, none]
    exact .start t.leafBefore?_zero
  | append_singleton before s ih =>
    obtain ⟨nonempty, here⟩ := reads before s [] rfl
    have positive := List.length_pos_of_ne_nil nonempty
    have size : (textOf (before ++ [s])).length = (textOf before).length + s.text.length := by
      simp [List.length_append]
    obtain ⟨n, rfl⟩ : ∃ n, bound = n + 1 := ⟨bound - 1, by omega⟩
    rw [visibleBefore?, here, Option.bind_eq_bind, Option.bind_some, TokenKind.isBlank_eq]
    cases blank : Leaf.kind ⟨(textOf before).length, s⟩ |>.isBlank with
    | true => exact .past here blank (ih reads.front (by omega))
    | false => exact .found here blank

/-- What the walk finds is the last token that is neither a space nor a line end. -/
theorem WalksBack.found_eq {ts : List Token} (reads : t.Reads ts) {found : Option Leaf}
    (walk : t.WalksBack (textOf ts).length found) :
    ((∀ s ∈ ts, s.kind.isBlank = true) ∧ found = none) ∨
      ∃ before s blanks, ts = before ++ s :: blanks ∧ s.kind.isBlank = false ∧
        (∀ s ∈ blanks, s.kind.isBlank = true) ∧ found = some ⟨(textOf before).length, s⟩ := by
  induction ts using List.reverseRecOn with
  | nil =>
    cases walk with
    | start => exact .inl ⟨by simp, rfl⟩
    | found here => contradiction
    | past here => contradiction
  | append_singleton before s ih =>
    obtain ⟨-, last⟩ := reads before s [] rfl
    cases walk with
    | start none =>
      rw [last] at none
      contradiction
    | found here visible =>
      obtain rfl := Option.some.inj (last.symm.trans here)
      exact .inr ⟨before, s, [], rfl, visible, by simp, rfl⟩
    | past here blank rest =>
      obtain rfl := Option.some.inj (last.symm.trans here)
      rcases ih reads.front rest with ⟨all, rfl⟩ | ⟨front, s', blanks, rfl, visible, others, rfl⟩
      · exact .inl ⟨List.forall_mem_append.mpr ⟨all, List.forall_mem_singleton.mpr blank⟩, rfl⟩
      · refine .inr ⟨front, s', blanks ++ [s], by simp, visible, ?_, rfl⟩
        exact List.forall_mem_append.mpr ⟨others, List.forall_mem_singleton.mpr blank⟩

/-! ## The cut -/

/-- A line begins at the start of the text and after a line end. -/
theorem Reads.endLine_iff {ts : List Token} (reads : t.Reads ts) :
    ((textOf ts).length = 0 ∨
      (t.leafBefore? (textOf ts).length).any (fun l => l.kind = .newline) = true) ↔
        Token.EndLine ts := by
  rcases List.eq_nil_or_concat ts with rfl | ⟨before, s, rfl⟩
  · simp [Token.endLine_nil]
  · rw [List.concat_eq_append] at reads ⊢
    obtain ⟨nonempty, here⟩ := reads before s [] rfl
    have some : ¬ (textOf (before ++ [s])).length = 0 := by simp [nonempty]
    rw [Token.endLine_append, here, or_iff_right some, Option.any_some, decide_eq_true_eq, Leaf.kind]

/-- A doc comment is cut off in front of its indentation. -/
theorem Reads.commentStart {ts : List Token} (reads : t.Reads ts) :
    ∃ kept indent, ts = kept ++ indent ∧ Token.Indents kept indent ∧
      t.commentStart (textOf ts).length = (textOf kept).length := by
  rcases List.eq_nil_or_concat ts with rfl | ⟨before, s, rfl⟩
  · exact ⟨[], [], rfl, ⟨by simp, by simp, by simp⟩, rfl⟩
  · rw [List.concat_eq_append] at reads ⊢
    obtain ⟨-, here⟩ := reads before s [] rfl
    rw [Tree.commentStart, here]
    dsimp only
    by_cases indent : s.kind = .space ∧ Token.EndLine before
    · refine ⟨before, [s], rfl, ⟨by simp, by simpa using indent, by simp⟩, if_pos ?_⟩
      simpa [Leaf.kind, indent.1] using reads.front.endLine_iff.mpr indent.2
    · refine ⟨before ++ [s], [], by simp, ⟨by simp, by simp, ?_⟩, if_neg ?_⟩
      · rintro - before' s' eq space line
        obtain ⟨rfl, rfl⟩ := List.append_singleton_inj.mp eq
        exact indent ⟨space, line⟩
      · intro both
        simp only [Bool.and_eq_true, decide_eq_true_eq, Bool.or_eq_true] at both
        exact indent ⟨both.1, reads.front.endLine_iff.mp both.2⟩

/-- What is cut off in front of a declaration is its doc comment, if the last visible token is one. -/
theorem Reads.deletionSpan_start {ts : List Token} (reads : t.Reads ts) {span : Span}
    (place : span.start = (textOf ts).length) :
    ∃ kept extra, ts = kept ++ extra ∧ (t.deletionSpan span).start = (textOf kept).length ∧
      (extra = [] ∨ ∃ indent doc blanks, extra = indent ++ doc :: blanks ∧
        Token.DocBlock kept indent doc blanks) ∧
      (extra ≠ [] ↔ ∃ doc, Token.lastVisible? ts = some doc ∧ doc.kind = .docComment) := by
  have walk := reads.walksBack (Nat.le_refl _)
  rw [deletionSpan, place]
  dsimp only
  rcases walk.found_eq reads with ⟨blank, none⟩ | ⟨before, s, blanks, rfl, visible, blank, found⟩
  · rw [none, Token.lastVisible?_of_blank blank]
    exact ⟨ts, [], by simp, rfl, .inl rfl, by simp⟩
  · rw [found, Token.lastVisible?_eq visible blank]
    dsimp only
    by_cases doc : s.kind = .docComment
    · rw [if_pos (by simpa [Leaf.kind] using doc)]
      obtain ⟨kept, indent, rfl, indents, cut⟩ := reads.front.commentStart
      refine ⟨kept, indent ++ s :: blanks, by simp, cut, .inr ⟨indent, s, blanks, rfl, ?_⟩, ?_⟩
      · exact ⟨indents, doc, blank⟩
      · simp [doc]
    · rw [if_neg (by simpa [Leaf.kind] using doc)]
      exact ⟨before ++ s :: blanks, [], by simp, rfl, .inl rfl, by simp [doc]⟩

theorem deletionSpan_len (t : Tree) (span : Span) : (t.deletionSpan span).len =
    wrapOffset (span.stop + (maxOffset + 1) - (t.deletionSpan span).start) := rfl

theorem deletionSpan_stop {span : Span} (before : (t.deletionSpan span).start ≤ maxOffset) :
    (t.deletionSpan span).stop = span.stop := by
  have small : span.stop < 4294967296 := Nat.mod_lt _ (by decide)
  rw [Span.stop, deletionSpan_len]
  unfold wrapOffset maxOffset at *
  omega

/-! ## Texts with offsets -/

/-- Every byte of the text has an offset, or the text is one leaf. -/
def Held (t : Tree) : Prop := t.text.length ≤ maxOffset ∨ ∃ l token, t.Vast l token

theorem parseIn_held (arena : Arena) (opts : ParseOptions) (text : Bytes) :
    (parseIn arena opts text).Held := by
  rcases Nat.lt_or_ge maxOffset text.length with long | fits
  · exact .inr (parseIn_vast arena opts long)
  · exact .inl (by rwa [text_parseIn])

theorem Held.compact (h : t.Held) : t.compact.Held := by
  rcases h with fits | ⟨l, token, vast⟩
  · exact .inl fits
  · obtain ⟨l', vast'⟩ := vast.compact
    exact .inr ⟨l', token, vast'⟩

theorem Held.revise (h : t.Held) (lossless : t.Lossless) {step : Revision} (limited : step.Limited) :
    (t.revise step).Held := by
  cases step with
  | compact => exact h.compact
  | edit edit opts =>
    simp only [Tree.revise]
    cases read : t.reparse edit opts with
    | error e => exact h
    | ok r =>
      obtain ⟨text, applied, ⟨_, eq⟩ | ⟨part, n, tree, ⟨p⟩, _, _, eq⟩⟩ := reparse_cases read lossless
      · dsimp only
        rw [eq]
        exact parseIn_held _ _ _
      · have short : text.length ≤ maxOffset :=
          Nat.le_trans (short_of_reparse read applied part) limited
        have whole : tree.Held := .inl (by rwa [p.text_eq])
        rcases eq with eq | eq <;> dsimp only <;> rw [eq]
        · exact whole
        · exact whole.compact

theorem Held.revisions (h : t.Held) (lossless : t.Lossless) {steps : List Revision}
    (limited : ∀ step ∈ steps, step.Limited) : (t.revisions steps).Held := by
  induction steps generalizing t with
  | nil => exact h
  | cons step rest ih =>
    obtain ⟨first, others⟩ := List.forall_mem_cons.mp limited
    exact ih (h.revise lossless first) (revise_lossless lossless step).1 others

/-- In a text that is one leaf nothing stands before a node. -/
theorem Vast.start_eq {l : Label} {token : Token} (h : t.Vast l token) {n : Node}
    (mem : n ∈ t.element.nodesFrom 0) : n.start = 0 ∧ t.element.tokens = n.element.tokens := by
  simp only [element, h.children, Element.nodesFrom, Element.nodesAmong, List.append_nil,
    List.mem_cons, List.not_mem_nil, or_false] at mem
  rcases mem with rfl | rfl <;>
    simp [element, Node.element, h.children, Element.tokens, Element.tokensOf]

/-! ## Deletions -/

/-- What goes with a node when it is deleted, and what stays. -/
structure Deletes (t : Tree) (n : Node) (kept extra after : List Token) : Prop where
  tokens : t.element.tokens = kept ++ extra ++ n.element.tokens ++ after
  place : n.span.start = (textOf (kept ++ extra)).length
  walk : t.WalksBack n.span.start (t.visibleBefore? n.span.start n.span.start)
  start : (t.deletionSpan n.span).start = (textOf kept).length
  start_le : (t.deletionSpan n.span).start ≤ n.span.start
  stop : (t.deletionSpan n.span).stop = n.span.stop
  front : t.text.slice (t.deletionSpan n.span).start n.span.start = textOf extra
  block : extra = [] ∨ ∃ indent doc blanks, extra = indent ++ doc :: blanks ∧
    Token.DocBlock kept indent doc blanks
  documented : (t.deletionSpan n.span).start < n.span.start ↔
    ∃ doc, Token.lastVisible? (kept ++ extra) = some doc ∧ doc.kind = .docComment

/-- A node after tokens with which the tree answers. -/
theorem Reads.deletes {before after : List Token} (reads : t.Reads before) (lossless : t.Lossless)
    {n : Node} (tokens : t.element.tokens = before ++ n.element.tokens ++ after)
    (place : n.span.start = (textOf before).length) (fits : n.span.start ≤ maxOffset) :
    ∃ kept extra, t.Deletes n kept extra after := by
  obtain ⟨kept, extra, rfl, start, block, documented⟩ := reads.deletionSpan_start place
  have sizes : n.span.start = (textOf kept).length + (textOf extra).length := by
    rw [place, Token.textOf_append, List.length_append]
  have text : t.text = textOf kept ++ textOf extra ++ textOf (n.element.tokens ++ after) := by
    rw [← lossless.text, Element.text_eq_tokens, tokens]
    simp
  refine ⟨kept, extra, tokens, place, ?_, start, ?_, ?_, ?_, block, ?_⟩
  · rw [place]
    exact reads.walksBack (Nat.le_refl _)
  · omega
  · exact deletionSpan_stop (by omega)
  · rw [start, text, Bytes.slice, List.take_left' (by rw [List.length_append, sizes]), List.drop_left]
  · -- A token more is a byte more.
    have filled : 0 < (textOf extra).length ↔ extra ≠ [] := by
      cases extra with
      | nil => simp
      | cons s rest =>
        have := List.length_pos_of_ne_nil (reads kept s rest rfl).1
        simp only [Token.textOf_cons, List.length_append, ne_eq, reduceCtorEq, not_false_eq_true,
          iff_true]
        omega
    rw [← documented, ← filled, start, sizes]
    omega

theorem Held.deletes (held : t.Held) (lossless : t.Lossless)
    (filled : ∀ s ∈ t.element.tokens, s.text ≠ []) {n : Node} (mem : n ∈ t.element.nodesFrom 0) :
    ∃ kept extra after, t.Deletes n kept extra after := by
  rcases held with fits | ⟨l, token, vast⟩
  · obtain ⟨measured, width⟩ := lossless.width fits
    obtain ⟨before, after, split, place⟩ := Element.split_of_mem_nodesFrom measured mem
    rw [Nat.zero_add] at place
    have inside : n.span.start ≤ maxOffset := by
      have bounds := Element.bounds_of_mem_nodesFrom measured mem
      simp only [element, Element.width, Node.span] at bounds ⊢
      omega
    have reads := reads_of_measured measured filled (split.trans (List.append_assoc ..))
    obtain ⟨kept, extra, deletes⟩ := reads.deletes lossless split place inside
    exact ⟨kept, extra, after, deletes⟩
  · obtain ⟨start, tokens⟩ := vast.start_eq mem
    have split : t.element.tokens = [] ++ n.element.tokens ++ [] := by simp [tokens]
    obtain ⟨kept, extra, deletes⟩ :=
      (reads_nil t).deletes lossless split start (by simp [Node.span, start])
    exact ⟨kept, extra, [], deletes⟩

/-- The text without what is deleted. -/
theorem Deletes.applyAll_eq {n : Node} {kept extra after : List Token}
    (h : t.Deletes n kept extra after) (lossless : t.Lossless) (fits : t.text.length ≤ maxOffset)
    (width : n.label.width = (textOf n.element.tokens).length) (uri : Bytes) :
    TextEdit.applyAll t.text [⟨uri, t.deletionSpan n.span, []⟩] = .ok (textOf (kept ++ after)) := by
  have text : t.text = textOf kept ++ textOf extra ++ textOf n.element.tokens ++ textOf after := by
    rw [← lossless.text, Element.text_eq_tokens, h.tokens]
    simp
  have size := congrArg List.length text
  have place := h.place
  simp only [Token.textOf_append, List.length_append] at size place
  have stop : n.span.stop = n.span.start + (textOf n.element.tokens).length := by
    rw [← width]
    exact Span.stop_eq (by simp only [Node.span] at place ⊢; omega)
  have start := h.start
  have reach : (t.deletionSpan n.span).start + (t.deletionSpan n.span).len = n.span.stop := by
    rw [deletionSpan_len]
    unfold wrapOffset maxOffset at *
    omega
  rw [TextEdit.applyAll, TextEdit.sort, List.mergeSort_singleton,
    TextEdit.applyFrom_cons_eq_ok (by dsimp only; omega)]
  dsimp only
  rw [reach, start]
  refine ⟨Nat.zero_le _, by omega, _, rfl, ?_⟩
  have front : t.text.slice 0 (textOf kept).length = textOf kept := by simp [text, Bytes.slice]
  have back : t.text.drop n.span.stop = textOf after := by
    rw [text, List.drop_left' (by simp only [List.length_append]; omega)]
  rw [front, back]
  simp

/-- Every node of a tree that a document ever has is deleted with the doc comment that stands right
in front of it, and with nothing else. The walk back to the comment comes to an end, the comment goes
with the indentation of its line, and the end of what is deleted is the end of the node. The spans of
symbols are those of nodes, and to delete a symbol leaves all other tokens of the text. -/
theorem deletion_exact (arena : Arena) (opts : ParseOptions) (text : Bytes) (steps : List Revision)
    (limited : ∀ step ∈ steps, step.Limited) :
    let t := (parseIn arena opts text).revisions steps
    (∀ n ∈ t.element.nodesFrom 0, ∃ kept extra after, t.Deletes n kept extra after) ∧
      ∀ serial uri, ∀ s ∈ (Table.ofTree serial uri t).symbols,
        ∃ n ∈ t.element.nodesFrom 0, s.Of n ∧ ∃ kept extra after, t.Deletes n kept extra after ∧
          TextEdit.applyAll t.text [⟨s.uri, t.deletionSpan s.span, []⟩] =
            .ok (textOf (kept ++ after)) := by
  intro t
  have first : (parseIn arena opts text).Lossless := parseIn_lossless _ _ _
  have lossless : t.Lossless := (revisions_lossless first steps).1
  have filled : ∀ s ∈ t.element.tokens, s.text ≠ [] :=
    revisions_tokens Token.always_filled first
      (parseIn_tokens Token.always_filled arena opts text) steps
  have held : t.Held := (parseIn_held arena opts text).revisions first limited
  have formed : t.Formed := revisions_formed first (parseIn_formed arena opts text) limited
  refine ⟨fun n mem => held.deletes lossless filled mem, fun serial uri s declared => ?_⟩
  obtain ⟨n, mem, of⟩ := exists_of_forall₂ (Table.symbols_of formed serial uri) declared
  obtain ⟨mem, -⟩ := List.mem_filter.mp mem
  obtain ⟨kept, extra, after, deletes⟩ := held.deletes lossless filled mem
  -- What has a name stands in a text that has offsets.
  have fits : t.text.length ≤ maxOffset := by
    refine formed.short.resolve_right fun unnamed => ?_
    obtain ⟨l, named, -⟩ := of.name
    obtain ⟨i, index, -⟩ := Node.name?_eq_some named
    have none : n.label.name = none := (Element.all_of_mem_nodesFrom unnamed mem).1
    rw [none] at index
    contradiction
  have width : n.label.width = (textOf n.element.tokens).length := by
    rw [← Element.text_eq_tokens]
    exact Element.width_eq (Element.all_of_mem_nodesFrom (lossless.width fits).1 mem)
  refine ⟨n, mem, of, kept, extra, after, deletes, ?_⟩
  rw [of.span]
  exact deletes.applyAll_eq lossless fits width s.uri

/-- A record in a protocol, of which a field has been renamed. -/
theorem deletion_exact_indented :
    let steps : List Revision := [.edit ⟨42, 1, "bc"⟩ {}]
    let t := (parseIn {} {} "protocol P \x7b\n  /** R. */\n  record R { int a; }\n\x7d").revisions steps
    let symbol : Symbol :=
      { name := "R", nameSpace := [], kind := .record, uri := "/a.avdl", generation := 2,
        decl := some 10, span := ⟨27, 20⟩, nameSpan := ⟨34, 1⟩ }
    (∀ step ∈ steps, step.Limited) ∧ symbol ∈ (Table.ofTree 1 "/a.avdl" t).symbols ∧
      t.deletionSpan symbol.span = ⟨13, 34⟩ ∧
      ∃ n ∈ t.element.nodesFrom 0, symbol.Of n ∧ ∃ kept extra after, t.Deletes n kept extra after ∧
        textOf (kept ++ after) = "protocol P \x7b\n\n\x7d" := by
  intro steps t symbol
  have limited : ∀ step ∈ steps, step.Limited := by simp [steps, Revision.Limited]
  have declared : symbol ∈ (Table.ofTree 1 "/a.avdl" t).symbols := by decide +kernel
  have span : t.deletionSpan symbol.span = ⟨13, 34⟩ := by decide +kernel
  have left : TextEdit.applyAll t.text [⟨"/a.avdl", ⟨13, 34⟩, []⟩] =
      .ok "protocol P \x7b\n\n\x7d" := by
    rw [TextEdit.applyAll, TextEdit.sort, List.mergeSort_singleton]
    decide +kernel
  obtain ⟨n, node, of, kept, extra, after, deletes, applied⟩ :=
    (deletion_exact {} {} _ steps limited).2 1 "/a.avdl" symbol declared
  rw [span, left] at applied
  exact ⟨limited, declared, span, n, node, of, kept, extra, after, deletes,
    (Except.ok.inj applied).symm⟩

end Tree

end AvroIdl
