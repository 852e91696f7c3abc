import AvroIdl.Json.String
import AvroIdl.Decimal.Double

/-!
# JSON values

A JSON value keeps the place and the text it was read from. `Json.read?` accepts JSON strictly;
the bytes of strings need not be UTF-8.
-/

namespace AvroIdl

/-- A piece of a text with its offset. -/
structure Piece where
  start : Nat
  raw : Bytes
  deriving DecidableEq, Repr

/-- A JSON value at its place. -/
inductive Json where
  /-- One of `null`, `true` and `false`. -/
  | word (piece : Piece)
  | number (piece : Piece)
  | string (piece : Piece)
  | array (piece : Piece) (items : List Json)
  /-- The members have decoded keys. -/
  | object (piece : Piece) (members : List (Bytes × Json))
  deriving Repr

namespace Json

def piece : Json → Piece
  | word p | number p | string p | array p _ | object p _ => p

/-- The offset at which a value starts. -/
def start (v : Json) : Nat := v.piece.start

/-- The text of a value as it is written. -/
def raw (v : Json) : Bytes := v.piece.raw

def isObject : Json → Bool
  | object _ _ => true
  | _ => false

def isArray : Json → Bool
  | array _ _ => true
  | _ => false

def isString : Json → Bool
  | string _ => true
  | _ => false

/-- The first member of an object with a key. -/
def get? (v : Json) (key : Bytes) : Option Json :=
  match v with
  | object _ members => (members.find? fun m => m.1 = key).map (·.2)
  | _ => none

/-- The elements of an array, the values of an object, or the value itself. -/
def elements : Json → List Json
  | array _ items => items
  | object _ members => members.map (·.2)
  | v => [v]

theorem sizeOf_get? {v w : Json} {key : Bytes} (h : v.get? key = some w) : sizeOf w < sizeOf v := by
  cases v with
  | object p members =>
    simp only [get?, Option.map_eq_some_iff] at h
    obtain ⟨m, hm, rfl⟩ := h
    have mem := List.sizeOf_lt_of_mem (List.mem_of_find?_eq_some hm)
    have snd : sizeOf m.2 < sizeOf m := by cases m; simp only [Prod.mk.sizeOf_spec]; omega
    simp only [object.sizeOf_spec]
    omega
  | word _ | number _ | string _ | array _ _ => simp [get?] at h

theorem sizeOf_elements {v w : Json} (h : w ∈ v.elements) : sizeOf w ≤ sizeOf v := by
  cases v with
  | object p members =>
    obtain ⟨m, hm, rfl⟩ := List.mem_map.mp h
    have mem := List.sizeOf_lt_of_mem hm
    have snd : sizeOf m.2 < sizeOf m := by cases m; simp only [Prod.mk.sizeOf_spec]; omega
    simp only [object.sizeOf_spec]
    omega
  | array p items =>
    have mem := List.sizeOf_lt_of_mem (show w ∈ items from h)
    simp only [array.sizeOf_spec]
    omega
  | word _ | number _ | string _ =>
    simp only [elements, List.mem_singleton] at h
    subst h
    exact Nat.le_refl _

/-- A number as text. Integers stay as they are written. Other numbers are rounded to double
precision and written with the fewest digits, without exponent. -/
def numberText (raw : Bytes) : Bytes :=
  let (sign, digits) := if raw.head? = some 0x2d then ([0x2d], raw.tail) else ([], raw)
  let whole := digits.takeWhile isDigit
  let rest := digits.drop whole.length
  if rest.isEmpty then raw
  else
    let fraction := if rest.head? = some 0x2e then rest.tail.takeWhile isDigit else []
    let rest := if rest.head? = some 0x2e then rest.drop (fraction.length + 1) else rest
    let power := rest.tail
    let value (ds : Bytes) : Nat := ds.foldl (fun n d => n * 10 + (d.toNat - 0x30)) 0
    let exponent : Int :=
      if power.head? = some 0x2d then -(value power.tail : Int)
      else if power.head? = some 0x2b then value power.tail
      else value power
    match (Decimal.mk (value (whole ++ fraction)) (exponent - fraction.length)).nearest? with
    | some x => sign ++ Bytes.ofString x.shortest.render
    | none => if sign.isEmpty then "+Inf" else "-Inf"

/-- The contents of a string literal that is well-formed. -/
def stringText (raw : Bytes) : Bytes := JsonString.ofBody (raw.slice 1 (raw.length - 1))

/-- A value as text. Strings are decoded, `null` is empty, and all else stands as it is written, but
for numbers that are no integers. -/
def text : Json → Bytes
  | word p => if p.raw = Bytes.ofString "null" then [] else p.raw
  | number p => numberText p.raw
  | string p => stringText p.raw
  | array p _ | object p _ => p.raw

/-- The text of a value that may be missing. -/
def textOf (v : Option Json) : Bytes := (v.map text).getD []

/-! ## Reading -/

def isBlank (c : UInt8) : Bool := c = 0x20 || c = 0x09 || c = 0x0a || c = 0x0d

def skipBlank (s : Bytes) : Bytes := s.dropWhile isBlank

/-- The text after the closing quote of a string whose opening quote has been read. -/
def afterString? : Bytes → Option Bytes
  | [] => none
  | c :: rest =>
    if c < 0x20 then none
    else if c = 0x22 then some rest
    else if c ≠ 0x5c then afterString? rest
    else match rest with
      | [] => none
      | e :: rest =>
        if (JsonString.escape? e).isSome then afterString? rest
        else if e ≠ 0x75 then none
        else match rest with
          | a :: b :: c :: d :: rest =>
            if isHexDigit a && isHexDigit b && isHexDigit c && isHexDigit d then afterString? rest
            else none
          | _ => none

/-- The text after at least one digit. -/
def afterDigits? (s : Bytes) : Option Bytes :=
  if s.head?.any AvroIdl.isDigit then some (s.dropWhile AvroIdl.isDigit) else none

/-- The text after a number. A number of more than one digit does not start with zero. -/
def afterNumber? (s : Bytes) : Option Bytes := do
  let s := if s.head? = some 0x2d then s.tail else s
  let s ← if s.head? = some 0x30 then some s.tail else afterDigits? s
  let s ← if s.head? = some 0x2e then afterDigits? s.tail else some s
  if s.head? = some 0x65 || s.head? = some 0x45 then
    let s := s.tail
    afterDigits? (if s.head? = some 0x2b || s.head? = some 0x2d then s.tail else s)
  else some s

/-- The words that are values. -/
def words : List Bytes := ["true", "false", "null"]

/-- What stands at the start of `s` before `rest`, in a text of `total` bytes that ends with `s`. -/
def pieceOf (total : Nat) (s rest : Bytes) : Piece :=
  ⟨total - s.length, s.take (s.length - rest.length)⟩

mutual

/-- The value at the start of a text, and the text after it. The text is the end of one of `total`
bytes. Each value takes a byte, so the size of the text bounds the depth. -/
def value? (total : Nat) : Nat → Bytes → Option (Json × Bytes)
  | 0, _ => none
  | depth + 1, s => do
    let c ← s.head?
    if c = 0x7b then
      let inside := skipBlank s.tail
      let (members, rest) ←
        if inside.head? = some 0x7d then some ([], inside.tail) else members? total depth inside
      some (.object (pieceOf total s rest) members, rest)
    else if c = 0x5b then
      let inside := skipBlank s.tail
      let (items, rest) ←
        if inside.head? = some 0x5d then some ([], inside.tail) else items? total depth inside
      some (.array (pieceOf total s rest) items, rest)
    else if c = 0x22 then
      let rest ← afterString? s.tail
      some (.string (pieceOf total s rest), rest)
    else if c = 0x2d || AvroIdl.isDigit c then
      let rest ← afterNumber? s
      some (.number (pieceOf total s rest), rest)
    else
      let w ← words.find? fun w => w.isPrefixOf s
      let rest := s.drop w.length
      some (.word (pieceOf total s rest), rest)

/-- The members of an object up to its closing brace, of which there is at least one. -/
def members? (total : Nat) : Nat → Bytes → Option (List (Bytes × Json) × Bytes)
  | 0, _ => none
  | depth + 1, s => do
    if s.head? ≠ some 0x22 then none
    let afterKey ← afterString? s.tail
    let key := stringText (pieceOf total s afterKey).raw
    let colon := skipBlank afterKey
    if colon.head? ≠ some 0x3a then none
    let (v, rest) ← value? total depth (skipBlank colon.tail)
    let rest := skipBlank rest
    if rest.head? = some 0x7d then some ([(key, v)], rest.tail)
    else if rest.head? = some 0x2c then
      let (more, rest) ← members? total depth (skipBlank rest.tail)
      some ((key, v) :: more, rest)
    else none

/-- The elements of an array up to its closing bracket, of which there is at least one. -/
def items? (total : Nat) : Nat → Bytes → Option (List Json × Bytes)
  | 0, _ => none
  | depth + 1, s => do
    let (v, rest) ← value? total depth s
    let rest := skipBlank rest
    if rest.head? = some 0x5d then some ([v], rest.tail)
    else if rest.head? = some 0x2c then
      let (more, rest) ← items? total depth (skipBlank rest.tail)
      some (v :: more, rest)
    else none

end

/-- The same value, read from another piece. -/
def withPiece (p : Piece) : Json → Json
  | word _ => word p
  | number _ => number p
  | string _ => string p
  | array _ items => array p items
  | object _ members => object p members

/-- The value that a text holds. Its piece runs to the end of the text. -/
def read? (text : Bytes) : Option Json := do
  let s := skipBlank text
  let (v, rest) ← value? text.length (text.length + 1) s
  if (skipBlank rest).isEmpty then some (v.withPiece (pieceOf text.length s [])) else none

end Json

end AvroIdl
