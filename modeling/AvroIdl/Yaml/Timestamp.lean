import AvroIdl.Text.Integer

/-!
# Points in time in YAML

A timestamp is a date, alone or with a time of day, after which a zone may stand.
-/

namespace AvroIdl.Yaml.Timestamp

/-- What is left of a text after a part of it. -/
abbrev Rest := Option Bytes

/-- A number of one or two digits, and what follows it. -/
def shortNumber? (s : Bytes) : Option (Nat × Bytes) :=
  let digits := (s.take 2).takeWhile isDigit
  (Bytes.digits? digits).map fun n => (n, s.drop digits.length)

/-- What follows a byte. -/
def after? (b : Char) (s : Bytes) : Rest :=
  if s.head? = some (Bytes.ofChar b) then some (s.drop 1) else none

def isLeapYear (year : Nat) : Bool := year % 4 = 0 && (year % 100 ≠ 0 || year % 400 = 0)

def daysIn (year month : Nat) : Nat :=
  if month = 2 then if isLeapYear year then 29 else 28
  else if [4, 6, 9, 11].contains month then 30
  else 31

/-- What follows a date. -/
def date? (s : Bytes) : Rest := do
  let digits := s.takeWhile isDigit
  guard (digits.length = 4)
  let year ← Bytes.digits? digits
  let (month, s) ← shortNumber? (← after? '-' (s.drop 4))
  let (day, s) ← shortNumber? (← after? '-' s)
  guard (1 ≤ month && month ≤ 12 && 1 ≤ day && day ≤ daysIn year month)
  return s

/-- What follows a number below a bound. -/
def numberBelow? (bound : Nat) (s : Bytes) : Rest := do
  let (n, s) ← shortNumber? s
  guard (n < bound)
  return s

/-- What follows the fraction of a second, if there is one. -/
def skipFraction (s : Bytes) : Bytes :=
  match s with
  | c :: rest =>
    let isPoint := c = Bytes.ofChar '.' || c = Bytes.ofChar ','
    if isPoint && rest.head?.any isDigit then rest.dropWhile isDigit else s
  | [] => s

/-- What follows a time of day. -/
def time? (s : Bytes) : Rest := do
  let s ← after? ':' (← numberBelow? 24 s)
  let s ← after? ':' (← numberBelow? 60 s)
  return skipFraction (← numberBelow? 60 s)

/-- Whether a text is a zone: the letter of the prime meridian, or hours and minutes with a sign. -/
def isZone (s : Bytes) : Bool :=
  match s with
  | [z] => z = Bytes.ofChar 'Z'
  | [sign, h, i, colon, m, n] =>
    let isAtMost (bound : Nat) (digits : Bytes) : Bool := (Bytes.digits? digits).any (· ≤ bound)
    (sign = Bytes.ofChar '+' || sign = Bytes.ofChar '-') && isAtMost 24 [h, i] &&
      colon = Bytes.ofChar ':' && isAtMost 60 [m, n]
  | _ => false

/-- Whether a text is a date and a time of day with a zone. -/
def isZoned (rest : Bytes) : Bool :=
  ((after? 'T' rest <|> after? 't' rest).bind time?).any isZone

/-- Whether a text is a date and a time of day, with spaces between them. -/
def isSpaced (rest : Bytes) : Bool :=
  (((after? ' ' rest).map fun s => s.dropWhile (· = Bytes.ofChar ' ')).bind time?).any List.isEmpty

/-- Whether a text is a timestamp. -/
def isTimestamp (s : Bytes) : Bool :=
  (date? s).any fun rest => rest.isEmpty || isZoned rest || isSpaced rest

end AvroIdl.Yaml.Timestamp
