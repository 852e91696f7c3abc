import AvroIdl.Snapshot
import AvroIdl.Text.Position

/-!
# Lines of output
-/

namespace AvroIdl

/-- What a command writes to its two outputs, and whether it fails. -/
structure Report where
  out : Bytes := []
  err : Bytes := []
  failed : Bool := false
  deriving DecidableEq, Repr

namespace Report

/-- A text as a line. -/
def line (parts : List Bytes) : Bytes := Bytes.join parts ++ [Position.lineEnd]

/-- The report of a command that cannot go on. -/
def failure (message : Bytes) : Report := { err := line [message], failed := true }

/-- A line and a column as they are shown. -/
def lineColumn (text : Bytes) (offset : Nat) : Bytes :=
  let (l, c) := Position.ofOffset text offset
  Bytes.join [Bytes.ofNat l, ":", Bytes.ofNat c]

/-- A place of a document, given the texts of documents. -/
def place (texts : Bytes → Bytes) (uri : Bytes) (offset : Nat) : Bytes :=
  Bytes.join [uri, ":", lineColumn (texts uri) offset]

/-- The lines of a diagnostic: what it says, and a note for each other place. -/
def diagnostic (texts : Bytes → Bytes) (d : Diagnostic) : Bytes :=
  let mark := if d.severity = .error then " error E" else " warning W"
  let notes := d.related.map fun r =>
    line ["  ", place texts (if r.uri.isEmpty then d.uri else r.uri) r.span.start, ": note: ", r.message]
  Bytes.join (line [place texts d.uri d.span.start, ":", mark, Bytes.ofNat d.code, ": ", d.message] ::
    notes)

/-- A number of things. -/
def count (n : Nat) (noun : Bytes) : Bytes :=
  if n = 1 then Bytes.join ["1 ", noun] else Bytes.join [Bytes.ofNat n, " ", noun, "s"]

end Report

namespace Snapshot

/-- The text of a loaded document, and an empty text for all others. -/
def textOf (s : Snapshot) (uri : Bytes) : Bytes := (s.document? uri).elim [] Document.text

end Snapshot

end AvroIdl
