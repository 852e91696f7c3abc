import AvroIdl.Resolution.Cache
import Mathlib.Data.List.Basic

/-!
# Stamps

The stamp of a scope lists the URIs and the generations of the visible documents, with semicolons
between them. A URI that reads like the end of one entry and the start of the next passes for two
documents. Where none does, `Scope.Plain`, the stamp tells them all: `Scope.stamp_inj`, and
`Scope.stamp_inj_of_own` for scopes of one document.
-/

namespace AvroIdl

namespace Bytes

/-- The decimal digits of a number are digits. -/
theorem isDigit_of_mem_ofNat {n : Nat} {b : UInt8} (h : b ∈ ofNat n) : isDigit b = true := by
  rw [ofNat, ofString, String.toUTF8_eq_toByteArray, Nat.repr_eq_ofList_toDigits,
    String.toByteArray_ofList, List.utf8Encode, List.data_toByteArray, List.mem_flatMap] at h
  obtain ⟨c, mem, hb⟩ := h
  have digit := Nat.isDigit_of_mem_toDigits (by decide) (by decide) mem
  simp only [Char.isDigit, Bool.and_eq_true, decide_eq_true_eq, ge_iff_le, UInt32.le_iff_toNat_le]
    at digit
  have low : 48 ≤ c.val.toNat ∧ c.val.toNat ≤ 57 := digit
  obtain rfl : b = UInt8.ofNat c.val.toNat := by
    rw [String.utf8EncodeChar, if_pos (by omega)] at hb
    simpa using hb
  have value : (UInt8.ofNat c.val.toNat).toNat = c.val.toNat := by
    rw [UInt8.toNat_ofNat']
    omega
  simp only [isDigit, Bool.and_eq_true, decide_eq_true_eq, UInt8.le_iff_toNat_le, value]
  exact low

/-- A number is read off its last digit and those before it. -/
theorem toDigits_inj {m n : Nat} (h : Nat.toDigits 10 m = Nat.toDigits 10 n) : m = n := by
  have last {i j : Nat} (hi : i < 10) (hj : j < 10) (same : i.digitChar = j.digitChar) : i = j := by
    have value := congrArg Char.toNat same
    rwa [Nat.toNat_digitChar_of_lt_ten hi, Nat.toNat_digitChar_of_lt_ten hj,
      Nat.add_left_cancel_iff] at value
  have short (c d : Char) (k : Nat) : [c] ≠ Nat.toDigits 10 k ++ [d] := fun same => by
    have size := congrArg List.length same
    have some : Nat.toDigits 10 k ≠ [] := Nat.toDigits_ne_nil
    simp [some] at size
  induction m using Nat.strongRecOn generalizing n with
  | ind m ih =>
    rw [Nat.toDigits_eq_if (by decide), Nat.toDigits_eq_if (n := n) (by decide)] at h
    split_ifs at h with small small' small'
    · exact last small small' (List.cons.inj h).1
    · exact absurd h (short _ _ _)
    · exact absurd h.symm (short _ _ _)
    · obtain ⟨front, digit⟩ := List.append_inj' h rfl
      have tens := ih (m / 10) (by omega) front
      have ones := last (by omega) (by omega) (List.cons.inj digit).1
      omega

theorem ofNat_inj {m n : Nat} (h : ofNat m = ofNat n) : m = n := by
  rw [ofNat, ofNat, ofString, ofString, String.toUTF8_eq_toByteArray, String.toUTF8_eq_toByteArray]
    at h
  have spelled := String.toByteArray_inj.mp (ByteArray.ext (Array.toList_inj.mp h))
  rw [Nat.repr_eq_ofList_toDigits, Nat.repr_eq_ofList_toDigits] at spelled
  exact toDigits_inj (String.ofList_injective spelled)

/-- A number is read up to the first byte that is no digit. -/
theorem digits_inj {n m : Nat} {r s : Bytes} (hr : ∀ b ∈ r.head?, isDigit b = false)
    (hs : ∀ b ∈ s.head?, isDigit b = false) (h : ofNat n ++ r = ofNat m ++ s) : n = m ∧ r = s := by
  have read (n : Nat) {r : Bytes} (hr : ∀ b ∈ r.head?, isDigit b = false) :
      (ofNat n ++ r).takeWhile isDigit = ofNat n := by
    rw [List.takeWhile_append_of_pos fun b mem => isDigit_of_mem_ofNat mem]
    cases r with
    | nil => simp
    | cons b rest => simp [hr b rfl]
  have same : ofNat n = ofNat m := by rw [← read n hr, h, read m hs]
  rw [same] at h
  exact ⟨ofNat_inj same, List.append_cancel_left h⟩

end Bytes

namespace Scope

/-- The version of a document that a table was read from. -/
def versionOf (t : Table) : Bytes × UInt64 := (t.uri, t.generation)

/-- No part of a URI reads like the generation of one document and the semicolon before the next. -/
def Plain (uri : Bytes) : Prop :=
  ∀ generation : UInt64, ¬ (0x40 :: Bytes.ofNat generation.toNat ++ [0x3b]) <:+: uri

theorem plain_of_not_mem {uri : Bytes} (h : (0x3b : UInt8) ∉ uri) : Plain uri := by
  intro generation part
  apply h
  exact part.subset (by simp)

theorem stampOf_eq (t : Table) :
    stampOf t = t.uri ++ 0x40 :: Bytes.ofNat t.generation.toNat := by
  rw [stampOf, Bytes.join, show Bytes.ofString "@" = [0x40] by decide]
  simp

/-- What can follow an entry of a stamp: nothing, or a semicolon. -/
def Ends (rest : Bytes) : Prop := ∀ b ∈ rest.head?, b = (0x3b : UInt8)

theorem Ends.not_digit {rest : Bytes} (h : Ends rest) : ∀ b ∈ rest.head?, isDigit b = false := by
  intro b mem
  rw [h b mem]
  decide

/-- A URI that goes on where the URI of an entry ends has its generation and a semicolon inside. -/
theorem not_plain_of_longer {uri more rest rest' : Bytes} {generation : UInt64} (ends : Ends rest)
    (some : more ≠ [])
    (h : 0x40 :: (Bytes.ofNat generation.toNat ++ rest) = more ++ 0x40 :: rest') :
    ¬ Plain (uri ++ more) := by
  intro plain
  obtain ⟨b, more, rfl⟩ := List.exists_cons_of_ne_nil some
  rw [List.cons_append, List.cons.injEq] at h
  obtain ⟨rfl, h⟩ := h
  have follows {r : Bytes} (h : rest = r ++ 0x40 :: rest') : ∃ a, r = 0x3b :: a := by
    cases r with
    | nil =>
      have sign := ends 0x40 (by simp [h])
      contradiction
    | cons c a => exact ⟨a, by rw [ends c (by simp [h])]⟩
  obtain ⟨a, rfl, eq⟩ | ⟨a, eq, eq'⟩ := List.append_eq_append_iff.mp h
  · obtain ⟨a, rfl⟩ := follows eq
    exact plain generation ⟨uri, a, by simp⟩
  · -- The next at sign is no part of the number.
    cases a with
    | nil =>
      obtain ⟨a, eq⟩ := follows (r := []) eq'.symm
      contradiction
    | cons c a =>
      obtain ⟨rfl, -⟩ := List.cons.inj eq'
      have digit := Bytes.isDigit_of_mem_ofNat (n := generation.toNat) (b := 0x40) (by simp [eq])
      contradiction

/-- An entry of a stamp tells the version of its document, and where it ends. -/
theorem entry_inj {t t' : Table} {r r' : Bytes} (plain : Plain t.uri) (plain' : Plain t'.uri)
    (ends : Ends r) (ends' : Ends r') (h : stampOf t ++ r = stampOf t' ++ r') :
    versionOf t = versionOf t' ∧ r = r' := by
  rw [stampOf_eq, stampOf_eq, List.append_assoc, List.append_assoc] at h
  have uri : t.uri = t'.uri := by
    obtain ⟨a, eq, rest⟩ | ⟨a, eq, rest⟩ := List.append_eq_append_iff.mp h
    · by_cases some : a = []
      · rw [eq, some, List.append_nil]
      · rw [eq] at plain'
        exact absurd plain' (not_plain_of_longer ends some rest)
    · by_cases some : a = []
      · rw [eq, some, List.append_nil]
      · rw [eq] at plain
        exact absurd plain (not_plain_of_longer ends' some rest)
  rw [uri, List.append_cancel_left_eq, List.cons_append, List.cons_append, List.cons.injEq] at h
  obtain ⟨number, rest⟩ := Bytes.digits_inj ends.not_digit ends'.not_digit h.2
  rw [versionOf, versionOf, uri, UInt64.toNat_inj.mp number]
  exact ⟨rfl, rest⟩

/-- What a stamp says of imported documents and of those that are still being loaded. -/
def rest (imports : List Table) (pending : Bool) : Bytes :=
  (imports.flatMap fun t => 0x3b :: stampOf t) ++ if pending then Bytes.ofString ";pending" else []

theorem ends_rest (imports : List Table) (pending : Bool) : Ends (rest imports pending) := by
  intro b mem
  cases imports with
  | nil =>
    cases pending with
    | false => simp [rest] at mem
    | true =>
      have : b = 0x3b := by simpa [rest, show Bytes.ofString ";pending" =
        0x3b :: Bytes.ofString "pending" by decide, eq_comm] using mem
      exact this
  | cons t others => simpa [rest, eq_comm] using mem

theorem stamp_eq (s : Scope) : s.stamp = stampOf s.own ++ rest s.imports s.pending := by
  have joined (t : Table) (ts : List Table) :
      Bytes.joinWith ";" ((t :: ts).map stampOf) =
        stampOf t ++ ts.flatMap fun t => 0x3b :: stampOf t := by
    rw [show Bytes.ofString ";" = [0x3b] by decide]
    induction ts generalizing t with
    | nil => simp [Bytes.joinWith]
    | cons t' ts ih =>
      have ih := ih t'
      simp only [List.map_cons, Bytes.joinWith, List.intersperse] at ih ⊢
      simp [ih]
  rw [stamp, visible, joined, rest]
  simp [Bytes.join]

/-- The word for imports that are still being loaded is no entry. -/
theorem pending_ne_entry (pending : Bool) (t : Table) (more : Bytes) :
    (if pending then Bytes.ofString ";pending" else []) ≠ 0x3b :: stampOf t ++ more := by
  intro h
  have sign : (0x40 : UInt8) ∈ 0x3b :: stampOf t ++ more := by simp [stampOf_eq]
  rw [← h] at sign
  cases pending <;> contradiction

/-- The entries of plain URIs can be told apart. -/
theorem rest_inj {ts ts' : List Table} {p p' : Bool} (plain : ∀ t ∈ ts, Plain t.uri)
    (plain' : ∀ t ∈ ts', Plain t.uri) (h : rest ts p = rest ts' p') :
    ts.map versionOf = ts'.map versionOf ∧ p = p' := by
  induction ts generalizing ts' with
  | nil =>
    cases ts' with
    | nil =>
      refine ⟨rfl, ?_⟩
      revert h
      cases p <;> cases p' <;> decide
    | cons t' ts' =>
      simp only [rest, List.flatMap_nil, List.nil_append, List.flatMap_cons, List.append_assoc] at h
      exact absurd h (pending_ne_entry p t' _)
  | cons t ts ih =>
    cases ts' with
    | nil =>
      simp only [rest, List.flatMap_nil, List.nil_append, List.flatMap_cons, List.append_assoc] at h
      exact absurd h.symm (pending_ne_entry p' t _)
    | cons t' ts' =>
      have entries : stampOf t ++ rest ts p = stampOf t' ++ rest ts' p' := by
        simpa [rest] using h
      obtain ⟨version, others⟩ := entry_inj (plain t List.mem_cons_self)
        (plain' t' List.mem_cons_self) (ends_rest ts p) (ends_rest ts' p') entries
      obtain ⟨versions, pending⟩ := ih (fun a mem => plain a (.tail _ mem))
        (fun a mem => plain' a (.tail _ mem)) others
      rw [List.map_cons, List.map_cons, version, versions]
      exact ⟨rfl, pending⟩

/-- The stamp of a scope tells which versions of which documents are visible, and whether some are
still being loaded. -/
theorem stamp_inj {s s' : Scope} (plain : ∀ t ∈ s.visible, (0x3b : UInt8) ∉ t.uri)
    (plain' : ∀ t ∈ s'.visible, (0x3b : UInt8) ∉ t.uri) (h : s.stamp = s'.stamp) :
    s.visible.map versionOf = s'.visible.map versionOf ∧ s.pending = s'.pending := by
  rw [stamp_eq, stamp_eq] at h
  obtain ⟨own, others⟩ := entry_inj (plain_of_not_mem (plain _ List.mem_cons_self))
    (plain_of_not_mem (plain' _ List.mem_cons_self)) (ends_rest _ _) (ends_rest _ _) h
  obtain ⟨versions, pending⟩ := rest_inj
    (fun t mem => plain_of_not_mem (plain t (.tail _ mem)))
    (fun t mem => plain_of_not_mem (plain' t (.tail _ mem))) others
  rw [visible, visible, List.map_cons, List.map_cons, own, versions]
  exact ⟨rfl, pending⟩

/-- The URI of the document itself may be any. -/
theorem stamp_inj_of_own {s s' : Scope} (own : s.own.uri = s'.own.uri)
    (plain : ∀ t ∈ s.imports, Plain t.uri) (plain' : ∀ t ∈ s'.imports, Plain t.uri)
    (h : s.stamp = s'.stamp) :
    s.visible.map versionOf = s'.visible.map versionOf ∧ s.pending = s'.pending := by
  rw [stamp_eq, stamp_eq, stampOf_eq, stampOf_eq, own, List.append_assoc, List.append_assoc,
    List.append_cancel_left_eq, List.cons_append, List.cons_append, List.cons.injEq] at h
  obtain ⟨number, others⟩ :=
    Bytes.digits_inj (ends_rest _ _).not_digit (ends_rest _ _).not_digit h.2
  obtain ⟨versions, pending⟩ := rest_inj plain plain' others
  have version : versionOf s.own = versionOf s'.own := by
    rw [versionOf, versionOf, own, UInt64.toNat_inj.mp number]
  rw [visible, visible, List.map_cons, List.map_cons, version, versions]
  exact ⟨rfl, pending⟩

/-- Scopes with the same versions are the same, if a version belongs to one table. -/
theorem eq_of_versions {s s' : Scope}
    (one : ∀ t ∈ s.visible, ∀ t' ∈ s'.visible,
      t.uri = t'.uri → t.generation = t'.generation → t = t')
    (versions : s.visible.map versionOf = s'.visible.map versionOf)
    (pending : s.pending = s'.pending) : s = s' := by
  have tables : s.visible = s'.visible := by
    apply List.ext_getElem
    · simpa using congrArg List.length versions
    · intro i hi hi'
      have version : versionOf s.visible[i] = versionOf s'.visible[i] := by
        simpa [hi, hi'] using congrArg (·[i]?) versions
      exact one _ (List.getElem_mem hi) _ (List.getElem_mem hi') (congrArg Prod.fst version)
        (congrArg Prod.snd version)
  obtain ⟨own, imports⟩ := List.cons.inj tables
  cases s
  cases s'
  simp_all

end Scope

end AvroIdl
