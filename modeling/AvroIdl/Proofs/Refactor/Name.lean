import AvroIdl.Proofs.Token.Renaming
import AvroIdl.Refactor.Rename

/-!
# Parts of names

The last part of a name stands after its last dot, or in backquotes: `Token.Split`. Where it is
replaced by a name that a type can get, the token stays a name: `Token.Split.renamed_eq`.
-/

namespace AvroIdl

namespace Bytes

variable {b : UInt8} {s p q : Bytes}

theorem exists_last (h : b ∈ s) : ∃ p q, s = p ++ b :: q ∧ b ∉ q := by
  induction s with
  | nil => contradiction
  | cons c rest ih =>
    by_cases later : b ∈ rest
    · obtain ⟨p, q, eq, last⟩ := ih later
      exact ⟨c :: p, q, by rw [eq, List.cons_append], last⟩
    · obtain rfl : b = c := (List.mem_cons.mp h).resolve_right later
      exact ⟨[], rest, rfl, later⟩

theorem lastIndexOf?_eq_none (h : b ∉ s) : lastIndexOf? b s = none := by
  have none : s.reverse.idxOf? b = none := List.idxOf?_eq_none_iff.mpr (by rwa [List.mem_reverse])
  rw [lastIndexOf?, none]
  rfl

theorem lastIndexOf?_append (h : b ∉ q) : lastIndexOf? b (p ++ b :: q) = some p.length := by
  have here : (p ++ b :: q).reverse.idxOf? b = some q.length := by
    have split : (p ++ b :: q).reverse = q.reverse ++ b :: p.reverse := by simp
    rw [split, List.idxOf?_eq_some_iff]
    refine ⟨by simp, by simp, fun j hj => ?_⟩
    rw [List.getElem_append_left (by simpa using hj)]
    intro eq
    exact h (List.mem_reverse.mp (eq ▸ List.getElem_mem _))
  rw [lastIndexOf?, here, Option.map_some, List.length_append, List.length_cons]
  congr 1
  omega

end Bytes

namespace Name

variable {space name : Bytes}

theorem simple_of_not_mem (h : dot ∉ name) : simple name = name := by
  rw [simple, Bytes.lastIndexOf?_eq_none h]

theorem simple_append (h : dot ∉ name) : simple (space ++ dot :: name) = name := by
  rw [simple, Bytes.lastIndexOf?_append h]
  have split : space ++ dot :: name = (space ++ [dot]) ++ name := by simp
  dsimp only
  rw [split, List.drop_left' (by simp)]

theorem dot_not_mem_simple (name : Bytes) : dot ∉ simple name := by
  by_cases dotted : dot ∈ name
  · obtain ⟨p, q, rfl, last⟩ := Bytes.exists_last dotted
    rwa [simple_append last]
  · rwa [simple_of_not_mem dotted]

/-- A namespace does not change the last part of a name. -/
theorem simple_qualify (space name : Bytes) : simple (qualify space name) = simple name := by
  unfold qualify
  split_ifs with stays
  · rfl
  · have plain : dot ∉ name := by
      rw [Bool.or_eq_true, not_or, isQualified, List.contains_iff_mem] at stays
      exact stays.2
    rw [simple_append plain, simple_of_not_mem plain]

/-- A name with another last part. -/
def renamed (newName name : Bytes) : Bytes :=
  (qualifier? name).elim newName fun space => space ++ dot :: newName

theorem renamed_of_not_mem (h : dot ∉ name) (newName : Bytes) : renamed newName name = newName := by
  rw [renamed, qualifier?, Bytes.lastIndexOf?_eq_none h]
  rfl

theorem renamed_append (h : dot ∉ name) (newName : Bytes) :
    renamed newName (space ++ dot :: name) = space ++ dot :: newName := by
  rw [renamed, qualifier?, Bytes.lastIndexOf?_append h, Option.map_some, List.take_left' rfl]
  rfl

theorem renamed_simple (name : Bytes) : renamed (simple name) name = name := by
  by_cases dotted : dot ∈ name
  · obtain ⟨space, last, rfl, plain⟩ := Bytes.exists_last dotted
    rw [simple_append plain, renamed_append plain]
  · rw [simple_of_not_mem dotted, renamed_of_not_mem dotted]

section

variable {newName : Bytes} (plain : dot ∉ newName)
include plain

/-- A name with another last part has the same namespace. -/
theorem qualifier?_renamed (name : Bytes) : qualifier? (renamed newName name) = qualifier? name := by
  by_cases dotted : dot ∈ name
  · obtain ⟨space, simple, rfl, last⟩ := Bytes.exists_last dotted
    rw [renamed_append last, qualifier?, qualifier?, Bytes.lastIndexOf?_append last,
      Bytes.lastIndexOf?_append plain, Option.map_some, Option.map_some, List.take_left' rfl,
      List.take_left' rfl]
  · rw [renamed_of_not_mem dotted, qualifier?, qualifier?, Bytes.lastIndexOf?_eq_none dotted,
      Bytes.lastIndexOf?_eq_none plain]
    rfl

theorem isQualified_renamed (name : Bytes) : isQualified (renamed newName name) = isQualified name := by
  by_cases dotted : dot ∈ name
  · obtain ⟨space, simple, rfl, last⟩ := Bytes.exists_last dotted
    rw [renamed_append last]
    simp [isQualified]
  · rw [renamed_of_not_mem dotted]
    simp [isQualified, dotted, plain]

theorem simple_renamed (name : Bytes) : simple (renamed newName name) = newName := by
  by_cases dotted : dot ∈ name
  · obtain ⟨space, last, rfl, simple⟩ := Bytes.exists_last dotted
    rw [renamed_append simple, simple_append plain]
  · rw [renamed_of_not_mem dotted, simple_of_not_mem plain]

/-- Names with the same last part stay different or equal if they get another one. -/
theorem renamed_inj {name name' : Bytes} (last : simple name = simple name') :
    renamed newName name = renamed newName name' ↔ name = name' := by
  refine ⟨fun same => ?_, fun same => by rw [same]⟩
  have space : qualifier? name = qualifier? name' := by
    rw [← qualifier?_renamed plain, same, qualifier?_renamed plain]
  rw [← renamed_simple name, last, renamed, space, ← renamed, renamed_simple]

/-- A name within a namespace is renamed there. -/
theorem qualify_renamed (space name : Bytes) :
    qualify space (renamed newName name) = renamed newName (qualify space name) := by
  rw [qualify, qualify, isQualified_renamed plain]
  split_ifs with stays
  · rfl
  · have simple : dot ∉ name := by
      rw [Bool.or_eq_true, not_or, isQualified, List.contains_iff_mem] at stays
      exact stays.2
    rw [renamed_append simple, renamed_of_not_mem simple]

end

end Name

namespace Token

/-- A name: a word, or a name of one part in backquotes. -/
inductive Named (t : Token) : Prop
  | word (h : isWord t.text = true)
  | quoted (name : Bytes) (text : t.text = 0x60 :: (name ++ [0x60])) (h : isIdentifier name = true)

/-- Where the token at the start of a text can serve as a name, it is one. -/
theorem named_of_next {t : Token} {z : Bytes} (found : next? (t.text ++ z) = some (t, z))
    (name : t.isName = true) : t.Named := by
  obtain ⟨c, u, text⟩ := List.exists_cons_of_ne_nil (next?_text found).2
  have kinds : t.kind = .ident ∨ t.kind = .keyword := by
    rwa [isName, Bool.or_eq_true, decide_eq_true_eq, decide_eq_true_eq] at name
  have token := found
  rw [text, List.cons_append, next?, Option.some.injEq, Prod.mk.injEq] at token
  have kind : (Scan.first c (u ++ z)).kind = t.kind := congrArg Token.kind token.1
  rcases Scan.start_of_name (kind ▸ kinds) with rfl | start
  · have read : Scan.first 0x60 (u ++ z) = Scan.quotedIdent (u ++ z) := rfl
    rw [read] at token kind
    simp only [Scan.quotedIdent] at token kind
    split_ifs at token kind with closed
    · -- What stands up to the second backquote is the whole token.
      generalize hpart : (u ++ z).takeWhile isIdentPart = part at token closed
      rw [Bool.and_eq_true, decide_eq_true_eq] at closed
      have before : (u ++ z).takeWhile isIdentPart ++ (u ++ z).drop part.length = u ++ z := by
        rw [hpart]
        exact List.prefix_iff_eq_append.mp (hpart ▸ List.takeWhile_prefix _)
      obtain ⟨rest, after⟩ := List.head?_eq_some_iff.mp closed.2
      rw [hpart, after] at before
      have whole := congrArg Token.text token.1
      rw [text] at whole
      have inside : part ++ [0x60] = u := by
        have taken := (List.cons.inj whole).2
        have split : part ++ 0x60 :: rest = (part ++ [0x60]) ++ rest := by simp
        rw [← before, split, List.take_left' (by simp)] at taken
        exact taken
      refine .quoted part (by rw [text, inside]) ?_
      rw [isIdentifier, Bool.and_eq_true]
      constructor
      · rw [← before] at closed hpart
        cases part with
        | nil => exact absurd (show isIdentStart 0x60 = true from closed.1) (by decide)
        | cons d more => exact closed.1
      · rw [← hpart]
        exact List.all_takeWhile
    · rw [show t.kind = .error from kind.symm] at kinds
      simp at kinds
  · exact .word (word_of_next found (by rwa [text])).1

end Token

namespace Scan

variable {u q : Bytes}

theorem identLength_of_letters (letters : u.all isIdentPart = true) : identLength u = u.length := by
  induction u with
  | nil => rfl
  | cons c rest ih =>
    rw [List.all_cons, Bool.and_eq_true] at letters
    rw [identLength, if_pos letters.1, ih letters.2, List.length_cons]
    omega

/-- A word without dots and dashes is of letters and digits. -/
theorem letters_of_identLength (whole : identLength u = u.length)
    (plain : ∀ c ∈ u, ¬ (c = 0x2e ∨ c = 0x60 ∨ c = 0x2d)) : u.all isIdentPart = true := by
  induction u with
  | nil => rfl
  | cons c rest ih =>
    rw [identLength, List.length_cons] at whole
    split_ifs at whole with part joins
    · rw [List.all_cons, part, Bool.true_and]
      exact ih (by omega) fun d mem => plain d (.tail _ mem)
    · rw [Bool.and_eq_true, Bool.or_eq_true, decide_eq_true_eq, decide_eq_true_eq] at joins
      exact absurd (joins.1.imp_right .inr) (plain c List.mem_cons_self)

/-- A dot joins two words. -/
theorem identLength_dotted :
    identLength (u ++ 0x2e :: q) = (u ++ 0x2e :: q).length ↔
      identLength u = u.length ∧ q.head?.any isIdentStart = true ∧ identLength q = q.length := by
  constructor
  · intro whole
    induction u with
    | nil =>
      rw [List.nil_append, identLength, List.length_cons, if_neg (by decide)] at whole
      split_ifs at whole with joins
      exact ⟨rfl, by simpa using joins, by omega⟩
    | cons c rest ih =>
      rw [List.cons_append, identLength, List.length_cons] at whole
      rw [identLength, List.length_cons]
      split_ifs at whole with part joins
      · obtain ⟨first, others⟩ := ih (by omega)
        rw [if_pos part]
        exact ⟨by omega, others⟩
      · obtain ⟨first, others⟩ := ih (by omega)
        cases rest with
        | nil => simp [isIdentStart, isLetter] at joins
        | cons d more =>
          rw [List.cons_append, List.head?_cons] at joins
          rw [if_neg part, List.head?_cons, if_pos joins]
          exact ⟨by omega, others⟩
  · rintro ⟨first, start, rest⟩
    have joined : identLength (0x2e :: q) = q.length + 1 := by
      rw [identLength, if_neg (by decide), if_pos (by simp [start]), rest]
      omega
    rw [identLength_append first, joined, List.length_append, List.length_cons]

/-- No keyword holds a dot. -/
theorem wordKind_dotted {w : Bytes} (h : Name.dot ∈ w) : wordKind w = .ident := by
  have plain {v : Bytes} (none : Name.dot ∉ v) : v ≠ w := by
    rintro rfl
    exact none h
  have noKeyword : Keyword.ofText? w = none := by
    have texts : ∀ k : Keyword, Name.dot ∉ k.text := by
      intro k
      cases k <;> decide
    rw [Keyword.ofText?, List.find?_eq_none]
    intro k _
    simpa using plain (texts k)
  rw [wordKind, noKeyword, if_neg (by simp), if_neg]
  rw [Bool.or_eq_true, decide_eq_true_eq, decide_eq_true_eq]
  rintro (rfl | rfl)
  · exact plain (by decide) rfl
  · exact plain (by decide) rfl

end Scan

theorem isWord_of_isIdentifier {name : Bytes} (h : isIdentifier name = true) : isWord name = true := by
  rw [isIdentifier, Bool.and_eq_true] at h
  cases name with
  | nil => exact absurd h.1 (by decide)
  | cons c rest =>
    rw [List.all_cons, Bool.and_eq_true] at h
    rw [isWord, Scan.identLength_of_letters h.2.2, Bool.and_eq_true]
    exact ⟨h.1, by simp⟩

/-- The last part of a word can be any name. -/
theorem isWord_dotted {space name : Bytes} :
    isWord (space ++ Name.dot :: name) = true ↔ isWord space = true ∧ isWord name = true := by
  have joined (w : Bytes) : isWord w = true ↔ w.head?.any isIdentStart = true ∧
      Scan.identLength w = w.length := by
    cases w with
    | nil => simp [isWord]
    | cons c rest =>
      rw [isWord, Bool.and_eq_true, decide_eq_true_eq, List.head?_cons, Option.any_some,
        List.length_cons, Scan.identLength]
      constructor
      · rintro ⟨start, whole⟩
        rw [if_pos (isIdentPart_of_isIdentStart start), whole]
        exact ⟨start, by omega⟩
      · rintro ⟨start, whole⟩
        rw [if_pos (isIdentPart_of_isIdentStart start)] at whole
        exact ⟨start, by omega⟩
  have dot : Name.dot = 0x2e := rfl
  rw [joined, joined, joined, dot, Scan.identLength_dotted]
  cases space with
  | nil => simp [isIdentStart, isLetter]
  | cons c rest =>
    rw [List.cons_append, List.head?_cons, List.head?_cons]
    tauto

namespace Token

/-- The token with another last part of its name. -/
def renamed (newName : Bytes) (t : Token) : Token :=
  let span := (Leaf.mk 0 t).simpleNameSpan
  { kind := .ident
    text := t.text.take span.start ++ newName ++ t.text.drop (span.start + span.len) }

/-- The last part of a name, at its place in the token. -/
structure Split (t : Token) (front back : Bytes) : Prop where
  text : t.text = front ++ Name.simple (identText t.text) ++ back
  some : Name.simple (identText t.text) ≠ []
  span : ∀ start, (Leaf.mk start t).simpleNameSpan =
    ⟨start + front.length, (Name.simple (identText t.text)).length⟩
  replaces : ∀ {newName}, isIdentifier newName = true → Scan.wordKind newName = .ident →
    t.Replaces ⟨.ident, front ++ newName ++ back, none⟩
  ident : ∀ {newName}, isIdentifier newName = true →
    identText (front ++ newName ++ back) = Name.renamed newName (identText t.text)

/-- A text that does not begin with a backquote is not quoted. -/
theorem identText_of_head? {text : Bytes} (plain : text.head? ≠ some 0x60) : identText text = text := by
  rw [identText, if_neg (by simp [plain])]

theorem identText_quoted (name : Bytes) : identText (0x60 :: (name ++ [0x60])) = name := by
  have ends : (0x60 :: (name ++ [0x60]) : Bytes).getLast? = some 0x60 := by
    rw [← List.cons_append, List.getLast?_concat]
  rw [identText, ends]
  simp [Bytes.slice]

theorem head?_of_isWord {text : Bytes} (word : isWord text = true) : text.head? ≠ some 0x60 := by
  cases text with
  | nil => simp
  | cons c u =>
    rw [isWord, Bool.and_eq_true] at word
    rw [List.head?_cons]
    rintro ⟨rfl⟩
    exact absurd word.1 (by decide)

theorem dot_not_mem_of_isIdentifier {name : Bytes} (h : isIdentifier name = true) :
    Name.dot ∉ name := by
  intro dotted
  have part := List.all_eq_true.mp (Bool.and_eq_true_iff.mp h).2 _ dotted
  exact absurd part (by decide)

theorem Named.split {t : Token} (h : t.Named) : ∃ front back, t.Split front back := by
  cases h with
  | word word =>
    obtain ⟨c, u, text⟩ : ∃ c u, t.text = c :: u := by
      cases eq : t.text with
      | nil => rw [eq] at word; contradiction
      | cons c u => exact ⟨c, u, rfl⟩
    have plain : t.text.head? ≠ some 0x60 := head?_of_isWord word
    have bare : identText t.text = t.text := identText_of_head? plain
    by_cases dotted : Name.dot ∈ t.text
    · obtain ⟨space, name, eq, last⟩ := Bytes.exists_last dotted
      have parts := isWord_dotted.mp (eq ▸ word)
      refine ⟨space ++ [Name.dot], [], ?_, ?_, fun start => ?_, fun {newName} valid kind => ?_,
        fun {newName} valid => ?_⟩
      · rw [bare, eq, Name.simple_append last]
        simp
      · rw [bare, eq, Name.simple_append last]
        rintro rfl
        exact absurd parts.2 (by decide)
      · have index : Bytes.lastIndexOf? 0x2e t.text = some space.length := by
          rw [eq]
          exact Bytes.lastIndexOf?_append last
        have simple : Name.simple t.text = name := by rw [eq, Name.simple_append last]
        rw [bare, simple, Leaf.simpleNameSpan, Leaf.text, if_neg (by simp [plain]), index]
        simp only [eq, List.length_append, List.length_cons, List.length_nil, Span.mk.injEq]
        omega
      · have split : space ++ [Name.dot] ++ newName ++ [] = space ++ Name.dot :: newName := by simp
        rw [split]
        exact .word word (isWord_dotted.mpr ⟨parts.1, isWord_of_isIdentifier valid⟩)
          (Scan.wordKind_dotted (by simp)).symm rfl
      · have split : space ++ [Name.dot] ++ newName ++ [] = space ++ Name.dot :: newName := by simp
        rw [bare, eq, Name.renamed_append last, split]
        exact identText_of_head?
          (head?_of_isWord (isWord_dotted.mpr ⟨parts.1, isWord_of_isIdentifier valid⟩))
    · have last : Name.simple t.text = t.text := Name.simple_of_not_mem dotted
      refine ⟨[], [], by simp [bare, last], by rw [bare, last, text]; simp, fun start => ?_,
        fun {newName} valid kind => ?_, fun {newName} valid => ?_⟩
      · have index : Bytes.lastIndexOf? 0x2e t.text = none := Bytes.lastIndexOf?_eq_none dotted
        rw [bare, last, Leaf.simpleNameSpan, Leaf.text, if_neg (by simp [plain]), index]
        rfl
      · have split : [] ++ newName ++ [] = newName := by simp
        rw [split]
        exact .word word (isWord_of_isIdentifier valid) kind.symm rfl
      · rw [bare, Name.renamed_of_not_mem dotted, List.nil_append, List.append_nil]
        exact identText_of_head? (head?_of_isWord (isWord_of_isIdentifier valid))
  | quoted name text valid =>
    have bare : identText t.text = name := by rw [text, identText_quoted]
    have simple : Name.dot ∉ name := dot_not_mem_of_isIdentifier valid
    have last : Name.simple name = name := Name.simple_of_not_mem simple
    refine ⟨[0x60], [0x60], by rw [bare, last, text]; simp, ?_, fun start => ?_,
      fun {newName} valid' kind => ?_, fun {newName} valid' => ?_⟩
    · rw [bare, last]
      rintro rfl
      exact absurd valid (by decide)
    · rw [bare, last, Leaf.simpleNameSpan, Leaf.text, text]
      simp
    · exact .quoted text valid'
    · rw [bare, Name.renamed_of_not_mem simple]
      exact identText_quoted newName

variable {t : Token} {front back : Bytes}

theorem Split.renamed_eq (h : t.Split front back) (newName : Bytes) :
    t.renamed newName = ⟨.ident, front ++ newName ++ back, none⟩ := by
  obtain ⟨text, -, span, -⟩ := h
  generalize Name.simple (identText t.text) = simple at text span
  have before : t.text.take (0 + front.length) = front := by
    rw [Nat.zero_add, text, List.append_assoc, List.take_left]
  have after : t.text.drop (0 + front.length + simple.length) = back := by
    rw [text, List.drop_left' (by simp)]
  simp only [renamed, span, before, after]

end Token

/-- A type does not get the name of a built-in one. -/
theorem isPrimitive_of_nameProblem? {name : Bytes} (h : nameProblem? name = none) :
    Primitive.isPrimitive name = false := by
  simp only [nameProblem?] at h
  split_ifs at h with _ _ reserved
  rw [Bool.or_eq_true, not_or, Bool.not_eq_true] at reserved
  simpa using reserved.2


/-- A name that a type can get is one of one part, and no keyword. -/
theorem isIdentifier_of_nameProblem? {name : Bytes} (h : nameProblem? name = none) :
    isIdentifier name = true ∧ Scan.wordKind name = .ident := by
  simp only [nameProblem?] at h
  split_ifs at h with empty divided reserved whole
  have full : name ≠ [] := by simpa using empty
  have plain (c : UInt8) (mem : c ∈ name) : ¬ (c = 0x2e ∨ c = 0x60 ∨ c = 0x2d) := by
    rintro divides
    refine divided (List.any_eq_true.mpr ⟨c, mem, ?_⟩)
    rcases divides with rfl | rfl | rfl <;> rfl
  -- The name is one token.
  obtain ⟨⟨t, rest⟩, found⟩ : ∃ p, Token.next? name = some p := by
    cases found : Token.next? name with
    | none => exact absurd (Token.next?_eq_none found) full
    | some p => exact ⟨p, rfl⟩
  have first := List.all_eq_true.mp whole t (by rw [Token.all_eq_cons found]; exact List.mem_cons_self)
  rw [Bool.and_eq_true, decide_eq_true_eq] at first
  obtain ⟨text, -⟩ := Token.next?_text found
  obtain rfl : rest = [] := by
    have size := congrArg List.length text
    rw [List.length_append] at size
    exact List.length_eq_zero_iff.mp (by omega)
  rw [List.append_nil] at text
  have named : t.Named := by
    apply Token.named_of_next (z := [])
    · rw [List.append_nil, text, found]
    · exact first.1
  cases named with
  | quoted inner spelled _ => exact absurd (.inr (.inl rfl)) (plain 0x60 (by rw [← text, spelled]; simp))
  | word word =>
    rw [text] at word
    have read := Token.next?_word (z := []) word rfl
    rw [List.append_nil, found, Option.some.injEq, Prod.mk.injEq] at read
    have kind : t.kind = Scan.wordKind name := congrArg Token.kind read.1
    constructor
    · cases name with
      | nil => contradiction
      | cons c u =>
        rw [isWord, Bool.and_eq_true, decide_eq_true_eq] at word
        rw [isIdentifier, Bool.and_eq_true, List.head?_cons, Option.any_some, List.all_cons,
          isIdentPart_of_isIdentStart word.1, Bool.true_and]
        refine ⟨word.1, Scan.letters_of_identLength word.2 fun d mem => ?_⟩
        exact plain d (.tail _ mem)
    · rw [Bool.or_eq_true, not_or] at reserved
      unfold Scan.wordKind at kind ⊢
      rw [if_neg reserved.1] at kind ⊢
      split_ifs at kind ⊢
      · rw [kind] at first
        simp at first
      · rfl

end AvroIdl
