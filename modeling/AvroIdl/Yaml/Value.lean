import AvroIdl.Text.Base64
import AvroIdl.Yaml.Node
import AvroIdl.Yaml.Number
import AvroIdl.Yaml.Timestamp

/-!
# Values of YAML scalars

A scalar without a tag has the value that its text spells. A tag has to agree with it.
-/

namespace AvroIdl.Yaml

inductive Value where
  | null
  | bool (b : Bool)
  | number (n : Number)
  | timestamp
  | text (s : Bytes)
  deriving DecidableEq, Repr

namespace Value

def nullTag : Bytes := "!!null"
def boolTag : Bytes := "!!bool"
def integerTag : Bytes := "!!int"
def fractionTag : Bytes := "!!float"
def timestampTag : Bytes := "!!timestamp"
def binaryTag : Bytes := "!!binary"

/-- The tag of a value. -/
def tag : Value → Bytes
  | null => nullTag
  | bool _ => boolTag
  | number (.integer _) => integerTag
  | number _ => fractionTag
  | timestamp => timestampTag
  | text _ => textTag

/-- Whether a text is one of some words. -/
def isOneOf (words : List String) (s : Bytes) : Bool := (words.map Bytes.ofString).contains s

/-- The value that a text spells, of which timestamps may be excluded. -/
def ofText (timestamps : Bool) (s : Bytes) : Value :=
  if isOneOf ["", "~", "null", "Null", "NULL"] s then null
  else if isOneOf ["true", "True", "TRUE"] s then bool true
  else if isOneOf ["false", "False", "FALSE"] s then bool false
  else if timestamps && Timestamp.isTimestamp s then timestamp
  else ((Number.ofText? s).map number).getD (text s)

/-- The value under a tag for a value that a text spells. An integer may be a fraction. -/
def under? (t : Bytes) (v : Value) : Option Value :=
  if v.tag = t then some v
  else match v with
    | number (.integer n) =>
      if t = fractionTag && fitsSigned 64 n then (Fraction.ofInt? n).map fun f => number (.fraction f)
      else none
    | _ => none

/-- The value of a scalar. A tag that is not known makes it a text. -/
def ofScalar? (tag : Option Bytes) (s : Bytes) : Option Value :=
  match tag with
  | none => some (ofText true s)
  | some t =>
    if t = textTag then some (text s)
    else if [nullTag, boolTag, integerTag, fractionTag, timestampTag].contains t then
      (ofText (t = timestampTag) s).under? t
    else if t = binaryTag then (Base64.decode? s).map text
    else some (text s)

/-- A value as an unsigned word of 32 bits. -/
def unsigned? : Value → Option Nat
  | number n => n.unsigned?
  | _ => none

/-- A value as a signed word of 64 bits. -/
def signed? : Value → Option Int
  | number n => n.signed?
  | _ => none

/-- A value as a truth value. Some words count as one where one is asked for. -/
def bool? : Value → Option Bool
  | bool b => some b
  | text s =>
    if isOneOf ["y", "Y", "yes", "Yes", "YES", "on", "On", "ON"] s then some true
    else if isOneOf ["n", "N", "no", "No", "NO", "off", "Off", "OFF"] s then some false
    else none
  | _ => none

/-- The text of a scalar with a value. -/
def textOf (s : Bytes) : Value → Bytes
  | text t => t
  | _ => s

end Value

end AvroIdl.Yaml
