import AvroIdl.Span

/-!
# Edits

An edit replaces a range of a text by new text.
-/

namespace AvroIdl

/-- The replacement of `oldLen` bytes at offset `start` by `newText`. -/
structure Edit where
  start : Nat
  oldLen : Nat
  newText : Bytes
  deriving DecidableEq, Repr

/-- An edit of a range that reaches beyond the end of a text of `size` bytes. -/
structure EditOutOfRange where
  start : Nat
  oldLen : Nat
  size : Nat
  deriving DecidableEq, Repr

def EditOutOfRange.message (e : EditOutOfRange) : Bytes :=
  Bytes.join ["edit ", Bytes.ofNat e.start, "+", Bytes.ofNat e.oldLen, " out of range for text of ",
    Bytes.ofNat e.size, " bytes"]

namespace Edit

/-- The range that is replaced. -/
def oldSpan (e : Edit) : Span := ⟨e.start, e.oldLen⟩

/-- The number of bytes that the text grows by. -/
def delta (e : Edit) : Int := e.newText.length - e.oldLen

/-- The size of a part of the text that holds the edit, after the edit. -/
def resize (e : Edit) (size : Nat) : Nat := size + e.newText.length - e.oldLen

/-- The text after the edit. -/
def apply (e : Edit) (text : Bytes) : Except EditOutOfRange Bytes :=
  if text.length < e.start + e.oldLen then .error ⟨e.start, e.oldLen, text.length⟩
  else .ok (text.take e.start ++ e.newText ++ text.drop (e.start + e.oldLen))

end Edit

end AvroIdl
