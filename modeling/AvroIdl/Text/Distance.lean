import AvroIdl.Text.Bytes

/-!
# Distances between words

The distance of two words is the least number of bytes that have to be put in, left out or replaced
to make one of the other.
-/

namespace AvroIdl.Bytes

/-- The distances of a word to a text and to each of its ends, given those of the word without its
first byte. -/
def extendDistances (c : UInt8) : Bytes → List Nat → List Nat
  | [], before => [before.headD 0 + 1]
  | b :: text, before =>
    let later := before.tail
    let rest := extendDistances c text later
    let least :=
      if b = c then later.headD 0
      else min (before.headD 0) (min (later.headD 0) (rest.headD 0)) + 1
    least :: rest

/-- The distances of a word to a text and to each of its ends, the empty one last. -/
def distances (word text : Bytes) : List Nat :=
  word.foldr (fun c before => extendDistances c text before) (List.range (text.length + 1)).reverse

/-- The distance of two words. -/
def distance (word text : Bytes) : Nat := (distances word text).headD 0

end AvroIdl.Bytes
