import AvroIdl.Span
import AvroIdl.Text.Quoted

/-!
# Text edits

Replacements in several documents. `TextEdit.applyAll` carries out those of one document at once.
-/

namespace AvroIdl

/-- The replacement of a span of a document. -/
structure TextEdit where
  uri : Bytes
  span : Span
  newText : Bytes
  deriving DecidableEq, Repr

/-- An edit that overlaps another or reaches beyond the end of the text. -/
structure EditOverlap where
  edit : TextEdit
  deriving DecidableEq, Repr

namespace TextEdit

/-- An edit as it is shown. -/
def render (e : TextEdit) : Bytes :=
  Bytes.join [e.uri, ":", e.span.render, " ", e.newText.quoted]

/-- Whether an edit stands before another or beside it: by document, then by start. -/
def notAfter (a b : TextEdit) : Bool :=
  if a.uri ≠ b.uri then a.uri.before b.uri else a.span.start ≤ b.span.start

/-- Edits by document and start. Those with the same start keep their order. -/
def sort (edits : List TextEdit) : List TextEdit := edits.mergeSort notAfter

/-- The text from offset `last` on after edits that follow each other. -/
def applyFrom (text : Bytes) (last : Nat) : List TextEdit → Except EditOverlap Bytes
  | [] => .ok (text.drop last)
  | e :: rest =>
    if e.span.start < last || text.length < e.span.stop then .error ⟨e⟩
    else do
      let after ← applyFrom text e.span.stop rest
      return text.slice last e.span.start ++ e.newText ++ after

/-- The text after edits of it, which may stand in any order. -/
def applyAll (text : Bytes) (edits : List TextEdit) : Except EditOverlap Bytes :=
  applyFrom text 0 (sort edits)

end TextEdit

def EditOverlap.message (e : EditOverlap) : Bytes :=
  Bytes.join ["edit ", e.edit.render, " overlaps another edit or the end of the text"]

end AvroIdl
