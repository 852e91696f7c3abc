import AvroIdl.Snapshot

/-!
# Completion

The type names that can be written at a place of a document.
-/

namespace AvroIdl

/-- Why names cannot be offered. -/
inductive CompletionError where
  | unknownDocument (uri : Bytes)
  /-- Only IDL documents are completed. -/
  | unsupported (kind : DocumentKind)
  | pastEnd (offset : Nat) (uri : Bytes)
  deriving DecidableEq, Repr

def CompletionError.message : CompletionError → Bytes
  | .unknownDocument uri => (DocumentError.unknown uri).message
  | .unsupported kind =>
    Bytes.join ["completion is not supported for ", kind.name, " documents"]
  | .pastEnd offset uri =>
    Bytes.join ["offset ", Bytes.ofNat offset, " is past the end of ", uri]

/-- A name that can be written. -/
structure Candidate where
  /-- The text to insert. -/
  label : Bytes
  kind : Bytes
  /-- The encoding of a logical type, or the document that declares the type. -/
  detail : Bytes
  /-- The type, unless it is built in. -/
  symbol : Option Symbol
  deriving DecidableEq, Repr

/-- The names that can be written at a place. -/
structure Completion where
  /-- The part of a name before the place. -/
  replace : Span
  candidates : List Candidate
  deriving DecidableEq, Repr

/-- What the place of a name says about it. -/
structure NameContext where
  /-- Whether only error types may be meant. -/
  errorsOnly : Bool
  /-- The namespace that simple names are relative to. -/
  nameSpace : Bytes
  deriving DecidableEq, Repr

namespace NameContext

/-- The context of a name within some nodes, from the inside out. The innermost record or protocol
sets the namespace. -/
def within (t : Table) (errorsOnly : Bool) : List Node → NameContext
  | [] => ⟨errorsOnly, t.nameSpace⟩
  | n :: above =>
    match n.kind with
    | .throwsClause => within t true above
    | .recordDecl | .errorDecl =>
      match t.symbols.find? fun s => s.decl = some n.id with
      | some s => ⟨errorsOnly, s.nameSpace⟩
      | none => within t errorsOnly above
    | .protocolDecl =>
      match t.protocol? with
      | some s => ⟨errorsOnly, s.nameSpace⟩
      | none => within t errorsOnly above
    | _ => within t errorsOnly above

end NameContext

namespace Candidate

/-- The built-in types that start with a text. -/
def primitives (start : Bytes) : List Candidate :=
  (Primitive.all.filter fun p => start.isPrefixOf p.1).map fun (name, underlying) =>
    { label := name
      kind := "primitive"
      detail := if underlying = name then [] else underlying
      symbol := none }

/-- A type as it is written in a namespace: by its simple name if it belongs there. -/
def ofSymbol (nameSpace : Bytes) (s : Symbol) : Candidate :=
  { label := if s.nameSpace = nameSpace then s.simpleName else s.name
    kind := s.kind.name
    detail := s.uri
    symbol := some s }

/-- Whether a candidate stands before another or beside it. -/
def notAfter (a b : Candidate) : Bool :=
  if a.label ≠ b.label then a.label.before b.label else !b.detail.before a.detail

/-- The visible types that start with a text, with their simple or with their full name. -/
def types (scope : Scope) (context : NameContext) (start : Bytes) : List Candidate :=
  let symbols := (scope.visible.flatMap Table.types).filter fun s =>
    !context.errorsOnly || s.kind = .error
  let found := symbols.filter fun s =>
    start.isPrefixOf (ofSymbol context.nameSpace s).label || start.isPrefixOf s.name
  (found.map (ofSymbol context.nameSpace)).mergeSort notAfter

end Candidate

namespace Leaf

/-- Whether a leaf can be the start of a name. -/
def isNameStart (l : Leaf) : Bool := l.kind = .ident || l.kind = .keyword

/-- The start of the name that a leaf spells up to an offset, without an opening backquote. -/
def nameStart (l : Leaf) (offset : Nat) : Bytes :=
  let text := identText (l.text.take (offset - l.start))
  if text.head? = some 0x60 then text.tail else text

end Leaf

namespace Completion

/-- The names that can be written after `start`, which is to be replaced. -/
def make (scope : Scope) (context : NameContext) (replace : Span) (start : Bytes) : Completion :=
  let builtIn := if context.errorsOnly then [] else Candidate.primitives start
  { replace, candidates := builtIn ++ Candidate.types scope context start }

end Completion

namespace Snapshot

/-- The names that can be written at an offset of a document. -/
def complete (s : Snapshot) (uri : Bytes) (offset : Nat) : Except CompletionError Completion :=
  match s.document? uri with
  | none => .error (.unknownDocument uri)
  | some d =>
    match d.tree? with
    | none => .error (.unsupported d.kind)
    | some tree =>
      if d.text.length < offset then .error (.pastEnd offset uri)
      else
        let scope := s.scopeOf d
        let found := if offset = 0 then none else tree.leafAt? (offset - 1)
        match found with
        | none => .ok (.make scope (.within d.table false []) ⟨offset, 0⟩ [])
        | some (leaf, path) =>
          let context := NameContext.within d.table false path
          if leaf.isNameStart then
            .ok (.make scope context ⟨leaf.start, offset - leaf.start⟩ (leaf.nameStart offset))
          else .ok (.make scope context ⟨offset, 0⟩ [])

end Snapshot

end AvroIdl
