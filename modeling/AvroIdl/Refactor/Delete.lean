import AvroIdl.Refactor.Error
import AvroIdl.Refactor.TextEdit

/-!
# Deleting a type

A declaration is deleted together with its doc comment, unless it is used elsewhere.
-/

namespace AvroIdl

/-- A place in a document. -/
structure Location where
  uri : Bytes
  span : Span
  deriving DecidableEq, Repr

/-- A place as it is shown. -/
def Location.render (l : Location) : Bytes := Bytes.join [l.uri, ":", l.span.render]

/-- What comes of a deletion. -/
inductive DeleteResult where
  /-- The type is still used at these places, of which there is at least one. -/
  | blocked (usages : List Location)
  | edits (edits : List TextEdit)
  deriving DecidableEq, Repr

namespace Tree

/-- The leaf right before an offset. -/
def leafBefore? (t : Tree) (offset : Nat) : Option Leaf :=
  if offset = 0 then none else (t.leafAt? (offset - 1)).map (·.1)

/-- The nearest leaf before an offset that is neither a space nor a line end, within so many
leaves. -/
def visibleBefore? (t : Tree) : Nat → Nat → Option Leaf
  | 0, _ => none
  | n + 1, offset => do
    let leaf ← t.leafBefore? offset
    if leaf.kind = .space || leaf.kind = .newline then visibleBefore? t n leaf.start else leaf

/-- Where the line of a doc comment at an offset is cut: at the start of the line if only a space
stands before it. -/
def commentStart (t : Tree) (offset : Nat) : Nat :=
  match t.leafBefore? offset with
  | some indent =>
    let startsLine := indent.start = 0 ||
      (t.leafBefore? indent.start).any fun l => l.kind = .newline
    if indent.kind = .space && startsLine then indent.start else offset
  | none => offset

/-- The span of a declaration with its doc comment. -/
def deletionSpan (t : Tree) (span : Span) : Span :=
  let start :=
    match t.visibleBefore? span.start span.start with
    | some leaf => if leaf.kind = .docComment then t.commentStart leaf.start else span.start
    | none => span.start
  ⟨start, wrapOffset (span.stop + (maxOffset + 1) - start)⟩

end Tree

namespace Snapshot

/-- The edits that delete a type, or the places where it is used outside its own declaration. -/
def delete (s : Snapshot) (c : Cache) (symbol : Symbol) :
    Cache × Except RefactorError DeleteResult :=
  if symbol.fromJson then (c, .error (.readOnly symbol))
  else
    match s.document? symbol.uri with
    | none => (c, .error (.unknownDocument symbol.uri))
    | some d =>
      let (c, usages) := s.usages c symbol
      let outside := usages.filter fun u =>
        u.uri ≠ symbol.uri || !symbol.span.covers u.reference.span
      if outside.isEmpty then
        let span := d.tree?.elim symbol.span fun t => t.deletionSpan symbol.span
        (c, .ok (.edits [{ uri := symbol.uri, span, newText := [] }]))
      else (c, .ok (.blocked (outside.map fun u => ⟨u.uri, u.reference.span⟩)))

end Snapshot

end AvroIdl
