/-!
# Numbers of double precision

The double nearest to a decimal number, and the shortest decimal number nearest to a double, both
by exact arithmetic on natural numbers.
-/

namespace AvroIdl

/-- The decimal number `digits * 10 ^ exp`. -/
structure Decimal where
  digits : Nat
  exp : Int
  deriving DecidableEq, Repr

/-- The finite double `m * 2 ^ q`, without its sign. -/
structure Double where
  m : Nat
  q : Int
  deriving DecidableEq, Repr

namespace Decimal

/-- Whether `a * 10 ^ i` is less than, equal to or greater than `n * 2 ^ j`. -/
def compareBinary (a : Nat) (i : Int) (n : Nat) (j : Int) : Ordering :=
  compare (a * Nat.pow 10 i.toNat * Nat.pow 2 (-j).toNat) (n * Nat.pow 2 j.toNat * Nat.pow 10 (-i).toNat)

/-- The quotient rounded to the nearest number, and to the even one of two. -/
def roundDiv (n d : Nat) : Nat :=
  let down := n / d
  let twice := 2 * (n % d)
  if twice < d || (twice = d && down % 2 = 0) then down else down + 1

/-- The least exponent of a double. -/
def minExp : Int := -1074

/-- The greatest exponent of a double. -/
def maxExp : Int := 971

/-- The double nearest to `num / den`, which is not zero, if it is not too large. -/
def nearestQuotient? (num den : Nat) : Option Double :=
  let top : Int := (num.log2 : Int) - den.log2
  let isBelow := num * Nat.pow 2 (-top).toNat < den * Nat.pow 2 top.toNat
  let q := max ((if isBelow then top - 1 else top) - 52) minExp
  let m := roundDiv (num * Nat.pow 2 (-q).toNat) (den * Nat.pow 2 q.toNat)
  let (m, q) := if m = Nat.pow 2 53 then (Nat.pow 2 52, q + 1) else (m, q)
  if maxExp < q then none else some ⟨m, q⟩

/-- The number of digits of a number. -/
def digitCount (n : Nat) : Nat := (Nat.toDigits 10 n).length

/-- The double nearest to a decimal number, if it is not too large. -/
def nearest? (d : Decimal) : Option Double :=
  let scale := d.exp + digitCount d.digits
  if d.digits = 0 || scale < -330 then some ⟨0, minExp⟩
  else if 310 < scale then none
  else nearestQuotient? (d.digits * Nat.pow 10 d.exp.toNat) (Nat.pow 10 (-d.exp).toNat)

/-- A decimal number without exponent and without zeros that say nothing. -/
def render (d : Decimal) : String :=
  let digits := Nat.toDigits 10 d.digits
  if 0 ≤ d.exp then String.ofList (digits ++ List.replicate d.exp.toNat '0')
  else
    let places := (-d.exp).toNat
    let padded := List.replicate (places + 1 - digits.length) '0' ++ digits
    let whole := padded.take (padded.length - places)
    let fraction := padded.drop (padded.length - places)
    let fraction := (fraction.reverse.dropWhile (· = '0')).reverse
    String.ofList (if fraction.isEmpty then whole else whole ++ '.' :: fraction)

end Decimal

namespace Double

/-- Whether the double nearest to a decimal number is this one. The numbers half way to the
neighbours belong to the double with the even `m`. -/
def readsBack (x : Double) (d : Decimal) : Bool :=
  let narrow := x.m = Nat.pow 2 52 && Decimal.minExp < x.q
  let low := Decimal.compareBinary d.digits d.exp (if narrow then 4 * x.m - 1 else 4 * x.m - 2) (x.q - 2)
  let high := Decimal.compareBinary d.digits d.exp (4 * x.m + 2) (x.q - 2)
  let even := x.m % 2 = 0
  (low = .gt || (even && low = .eq)) && (high = .lt || (even && high = .eq))

/-- The decimal number with `10 ^ exp` as its unit that is nearest to a double and reads back as
it, if there is one. -/
def onGrid? (x : Double) (exp : Int) : Option Decimal :=
  let num := x.m * Nat.pow 2 x.q.toNat * Nat.pow 10 (-exp).toNat
  let den := Nat.pow 2 (-x.q).toNat * Nat.pow 10 exp.toNat
  let down := num / den
  match x.readsBack ⟨down, exp⟩, x.readsBack ⟨down + 1, exp⟩ with
  | true, true => some ⟨Decimal.roundDiv num den, exp⟩
  | true, false => some ⟨down, exp⟩
  | false, true => some ⟨down + 1, exp⟩
  | false, false => none

/-- The greatest exponent that the first digit of a double can have, and a little more. -/
def firstExp (x : Double) : Int :=
  if 0 ≤ x.q then Decimal.digitCount (x.m * Nat.pow 2 x.q.toNat)
  else
    let whole := x.m / Nat.pow 2 (-x.q).toNat
    if whole ≠ 0 then Decimal.digitCount whole
    else
      let bits := (Nat.pow 2 (-x.q).toNat / x.m).log2
      1 - (bits * 30103 / 100000 : Nat)

/-- The decimal number with the fewest digits that reads back as a double, and the nearest one of
those. -/
def shortest (x : Double) : Decimal :=
  if x.m = 0 then ⟨0, 0⟩
  else
    let first := x.firstExp
    ((List.range 24).findSome? fun (n : Nat) => x.onGrid? (first - n)).getD
      ⟨x.m * Nat.pow 2 x.q.toNat * Nat.pow 5 (-x.q).toNat, min x.q 0⟩

end Double

end AvroIdl
