import AvroIdl.Decimal.Double
import AvroIdl.Text.Integer

/-!
# Numbers of YAML

Numbers are integers of at most 64 bits in base two, eight, ten or sixteen. All others have double
precision.
-/

namespace AvroIdl

namespace Decimal

/-- The exponent after the mark of one. No mark is the exponent zero. -/
def exponent? (s : Bytes) : Option Int :=
  match s with
  | [] => some 0
  | c :: rest => if c = 0x65 || c = 0x45 then Bytes.integer? rest else none

/-- The decimal number that digits spell, with an optional point among them and an optional
exponent. A point that comes first has a digit after it. -/
def ofText? (s : Bytes) : Option Decimal :=
  let whole := s.takeWhile isDigit
  let rest := s.dropWhile isDigit
  let point := rest.head? = some 0x2e
  let fraction := if point then (rest.drop 1).takeWhile isDigit else []
  let rest := if point then (rest.drop 1).dropWhile isDigit else rest
  if whole.isEmpty && fraction.isEmpty then none
  else do
    let digits ← Bytes.digits? (whole ++ fraction)
    let exp ← exponent? rest
    some ⟨digits, exp - fraction.length⟩

end Decimal

/-- A number of double precision with its sign. -/
structure Fraction where
  negative : Bool
  number : Double
  deriving DecidableEq, Repr

namespace Fraction

/-- The whole part. -/
def whole (f : Fraction) : Int :=
  let n := f.number.m * Nat.pow 2 f.number.q.toNat / Nat.pow 2 (-f.number.q).toNat
  if f.negative then -n else n

/-- The fraction that a text spells, if it is not too large. -/
def ofText? (s : Bytes) : Option Fraction :=
  let negative := s.head? = some 0x2d
  let digits := if negative || s.head? = some 0x2b then s.drop 1 else s
  (Decimal.ofText? digits).bind fun d => d.nearest?.map fun number => { negative, number }

/-- The fraction nearest to an integer. -/
def ofInt? (n : Int) : Option Fraction :=
  (Decimal.nearest? ⟨n.natAbs, 0⟩).map fun number => { negative := n < 0, number }

end Fraction

namespace Yaml

inductive Number where
  | integer (n : Int)
  | fraction (f : Fraction)
  | infinite (negative : Bool)
  /-- What is no number at all, but counts as one. -/
  | undefined
  deriving DecidableEq, Repr

namespace Number

def underscore : UInt8 := Bytes.ofChar '_'

/-- Whether an integer fits into 64 bits. Only without a sign may all of them be digits. -/
def fits (n : Int) (isSigned : Bool) : Bool := fitsSigned 64 n || (!isSigned && fitsUnsigned 64 n)

/-- The integer that a text without underscores spells. -/
def integer? (s : Bytes) : Option Int :=
  (Bytes.signed? Bytes.literal? s).filter fun n => fits n (!s.head?.any isDigit)

/-- The number that digits of a base spell, of which there is at least one. -/
def digitsInBase? (base : Nat) (s : Bytes) : Option Nat :=
  if s.isEmpty then none else s.foldlM (Bytes.appendDigit? base) 0

/-- The integer with a sign after the mark of base two or eight. -/
def markedInteger? (s : Bytes) : Option Int :=
  let digits := s.drop 2
  let number? (base : Nat) : Option Int :=
    (Bytes.signed? (digitsInBase? base) digits).filter (fitsSigned 64)
  if (Bytes.ofString "0b").isPrefixOf s then number? 2
  else if (Bytes.ofString "0o").isPrefixOf s then number? 8
  else none

/-- The number that a text spells which starts with a digit or a sign. Underscores in it are not
read. -/
def ofDigits? (s : Bytes) : Option Number :=
  let s := s.filter (· ≠ underscore)
  (integer? s).map integer <|> (Fraction.ofText? s).map fraction <|> (markedInteger? s).map integer

/-- Whether each underscore stands between two digits, given whether one stands before. -/
def isSeparated (afterDigit : Bool) : Bytes → Bool
  | [] => true
  | c :: rest =>
    if c = underscore then afterDigit && rest.head?.any isDigit && isSeparated false rest
    else isSeparated (isDigit c) rest

/-- The number that a text spells which starts with a point. Underscores stand between digits. -/
def ofPoint? (s : Bytes) : Option Number :=
  if isSeparated false s then (Fraction.ofText? (s.filter (· ≠ underscore))).map fraction else none

/-- The numbers that are spelled by a word. -/
def words : List (Bytes × Number) :=
  [(".nan", undefined), (".NaN", undefined), (".NAN", undefined), (".inf", infinite false),
    (".Inf", infinite false), (".INF", infinite false), ("+.inf", infinite false),
    ("+.Inf", infinite false), ("+.INF", infinite false), ("-.inf", infinite true),
    ("-.Inf", infinite true), ("-.INF", infinite true)]

/-- The number that a text spells. -/
def ofText? (s : Bytes) : Option Number :=
  match words.lookup s, s.head? with
  | some n, _ => some n
  | none, none => none
  | none, some c =>
    if isDigit c || c = 0x2b || c = 0x2d then ofDigits? s
    else if c = 0x2e then ofPoint? s
    else none

/-- The least signed word of 64 bits. -/
def minWord : Int := -Int.ofNat (Nat.pow 2 63)

/-- A number as an unsigned word of 32 bits. A fraction gives its whole part. -/
def unsigned? : Number → Option Nat
  | integer n => if fitsUnsigned 32 n then some n.toNat else none
  | fraction f => if fitsUnsigned 32 f.whole then some f.whole.toNat else none
  | infinite _ | undefined => none

/-- A number as a signed word of 64 bits. A fraction gives its whole part. The least word stands for
fractions below it, and for the first one above all words. -/
def signed? : Number → Option Int
  | integer n => if fitsSigned 64 n then some n else none
  | fraction f =>
    let n := f.whole
    if fitsSigned 64 n then some n else if n ≤ -minWord then some minWord else none
  | infinite negative => if negative then some minWord else none
  | undefined => none

end Number

end Yaml

end AvroIdl
