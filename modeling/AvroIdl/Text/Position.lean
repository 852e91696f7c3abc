import AvroIdl.Text.Integer
import AvroIdl.Text.Quoted

/-!
# Lines and columns

Lines and columns are numbered from one. A column counts characters, and a stray byte is one.
-/

namespace AvroIdl

/-- Why a position is not in a text. -/
inductive PositionError where
  | invalid (position : Bytes)
  | offsetPastEnd (offset : Nat)
  | linePastEnd (position : Bytes)
  | columnPastEnd (position : Bytes)
  deriving DecidableEq, Repr

def PositionError.message : PositionError → Bytes
  | .invalid position => Bytes.join ["invalid position ", position.quoted]
  | .offsetPastEnd offset =>
    Bytes.join ["position ", Bytes.ofNat offset, " is past the end of the file"]
  | .linePastEnd position =>
    Bytes.join ["position ", position.quoted, " is past the end of the file"]
  | .columnPastEnd position =>
    Bytes.join ["position ", position.quoted, " is past the end of the line"]

namespace Position

def lineEnd : UInt8 := 0x0a

/-- The line and the column of an offset. Offsets after the end of the text are at its end. -/
def ofOffset (text : Bytes) (offset : Nat) : Nat × Nat :=
  let before := text.take offset
  let line := (before.reverse.takeWhile (· ≠ lineEnd)).reverse
  (before.count lineEnd + 1, (Bytes.runes line).length + 1)

/-- The number of bytes in so many lines, each with its end. -/
def linesLength? : Nat → Bytes → Option Nat
  | 0, _ => some 0
  | n + 1, text => do
    let i ← text.idxOf? lineEnd
    let more ← linesLength? n (text.drop (i + 1))
    some (i + 1 + more)

/-- The number of bytes in so many characters of a line. -/
def charsLength? : Nat → Bytes → Option Nat
  | 0, _ => some 0
  | _ + 1, [] => none
  | n + 1, c :: rest =>
    if c = lineEnd then none
    else do
      let extra := (Rune.read c rest).2
      let more ← charsLength? n (rest.drop extra)
      some (1 + extra + more)

/-- The offset of a line and a column, which `position` spells. -/
def ofLineColumn (text position : Bytes) (line column : Nat) : Except PositionError Nat :=
  match linesLength? (line - 1) text with
  | none => .error (.linePastEnd position)
  | some start =>
    match charsLength? (column - 1) (text.drop start) with
    | none => .error (.columnPastEnd position)
    | some length => .ok (start + length)

/-- A number of a line or column. -/
def number? (s : Bytes) : Option Nat := do
  let n ← (Bytes.integer? s).filter (fitsSigned 64)
  if 1 ≤ n then some n.toNat else none

/-- The offset that a position spells, as a number or as a line and a column with a colon between
them. -/
def toOffset (text position : Bytes) : Except PositionError Nat :=
  match position.idxOf? (Bytes.ofChar ':') with
  | none =>
    match (Bytes.digits? position).filter fun (n : Nat) => fitsUnsigned 32 n with
    | none => .error (.invalid position)
    | some offset => if text.length < offset then .error (.offsetPastEnd offset) else .ok offset
  | some i =>
    match number? (position.take i), number? (position.drop (i + 1)) with
    | some line, some column => ofLineColumn text position line column
    | _, _ => .error (.invalid position)

end Position

end AvroIdl
