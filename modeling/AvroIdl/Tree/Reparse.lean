import AvroIdl.Edit
import AvroIdl.Tree.Node
import AvroIdl.Tree.Compact
import AvroIdl.Parser.Run

/-!
# Reading an edited text again

After an edit only the smallest statement around it is read again. The nodes outside it are shared
with the tree before the edit, and the nodes around it are made anew. When no statement around the
edit can be read on its own, the whole text is read.
-/

namespace AvroIdl

namespace Element

mutual

/-- The last token of an element, when its last child, and the last child of that, and so on, ends
in one. -/
def lastToken? : Element → Option Token
  | leaf t => some t
  | node _ children => lastTokenOf? children

/-- The last token of the last of some elements. -/
def lastTokenOf? : List Element → Option Token
  | [] => none
  | [e] => e.lastToken?
  | _ :: rest => lastTokenOf? rest

end

/-- The element, or its replacement if it is the node with number `id`. -/
def replace (id : NodeId) (replacement : Element) : Element → Element
  | leaf t => leaf t
  | node l children => if l.id = id then replacement else node l children

end Element

namespace NodeKind

/-- Whether a node of this kind can be read on its own. -/
def standsAlone : NodeKind → Bool
  | protocolDecl | namespaceDecl | schemaDecl | importStmt | recordDecl | errorDecl | enumDecl
  | fixedDecl | messageDecl | fieldDecl => true
  | _ => false

/-- Whether nodes of this kind have a body of statements in braces. -/
def hasBlock : NodeKind → Bool
  | protocolDecl | recordDecl | errorDecl => true
  | _ => false

/-- The statements that stand in nodes of this kind. -/
def body? : NodeKind → Option Body
  | document => some .document
  | protocolDecl => some .protocol
  | recordDecl | errorDecl => some .record
  | _ => none

end NodeKind

namespace Node

/-- Whether a node strictly contains what an edit replaces, so that its first and its last byte
stay. -/
def surrounds (n : Node) (edit : Edit) : Bool :=
  n.start < edit.start && edit.start + edit.oldLen < n.start + n.label.width

/-- The result of reading one statement at the start of a text, with its arena. -/
def rereadAs (n : Node) (body : Body) (above : List Node) (arena : Arena) (generation : UInt64)
    (text : Bytes) : Machine :=
  let blocks := above.countP fun a => a.kind.hasBlock
  (Machine.start arena generation blocks [.item body]).run (lexemes (text.drop n.start))

/-- The node that replaces `n` after an edit: all that was read, of the same kind, exactly as wide
as the edit makes it, and ending in a token that the text after it cannot extend. -/
def replacement? (n : Node) (edit : Edit) (read : List Element) : Option (Label × List Element) :=
  match read with
  | [.node l children] =>
    match Element.lastTokenOf? children with
    | some t =>
      if l.kind = n.kind && l.width = edit.resize n.label.width &&
        (t.kind = .closeCurl || t.kind = .semi || t.kind = .closeParen)
      then some (l, children) else none
    | none => none
  | _ => none

end Node

namespace Tree

/-- Makes the nodes around the node with number `id` anew, from the inside out, with another node
in its place. -/
def splice (generation : UInt64) (edit : Edit) (arena : Arena) (id : NodeId) (label : Label)
    (children : List Element) : List Node → Arena × Label × List Element
  | [] => (arena, label, children)
  | a :: above =>
    let others := a.children.map (Element.replace id (.node label children))
    let around : Label :=
      { a.label with
        id := arena.nodes + 1
        generation
        width := edit.resize a.label.width
        hasError := a.kind = .error || others.any Element.hasError }
    splice generation edit arena.addNode a.id around others above

/-- Reads the innermost statement again that surrounds an edit and can be read on its own, on the
way from the inside out. The arena goes on counting through attempts that fail. The node that was
replaced comes with the new tree. -/
def reparseAlong (generation : UInt64) (edit : Edit) (text : Bytes) (arena : Arena) :
    List Node → Option (Node × Tree)
  | [] => none
  | n :: above =>
    match (above.head?.bind fun parent => parent.kind.body?) with
    | none => reparseAlong generation edit text arena above
    | some body =>
      if n.kind.standsAlone && n.surrounds edit then
        let m := n.rereadAs body above arena generation text
        match n.replacement? edit m.contents with
        | some (l, children) =>
          let (arena, label, children) := splice generation edit m.arena n.id l children above
          some (n, { arena, label, children, text, generation })
        | none => reparseAlong generation edit text m.arena above
      else reparseAlong generation edit text arena above

end Tree

/-- How an edited tree was rebuilt. -/
structure Reparsed where
  tree : Tree
  /-- Whether the whole text was read again. -/
  full : Bool
  /-- The kind of the node that was read again. -/
  kind : NodeKind
  /-- The span of that node in the new text. -/
  span : Span
  /-- Whether the tree now has an arena of its own. -/
  compacted : Bool
  deriving Repr

namespace Tree

/-- The generation after that of a tree, unless a later one is asked for. -/
def nextGeneration (t : Tree) (wanted : UInt64) : UInt64 :=
  if wanted ≤ t.generation then t.generation + 1 else wanted

/-- The tree of the text after an edit. -/
def reparse (t : Tree) (edit : Edit) (opts : ParseOptions := {}) : Except EditOutOfRange Reparsed :=
  do
    let text ← edit.apply t.text
    let generation := t.nextGeneration opts.generation
    let partly :=
      if text.length ≤ opts.maxSize then
        reparseAlong generation edit text t.arena (t.pathAt edit.start)
      else none
    match partly with
    | some (n, tree) =>
      return {
        tree := if tree.isSparse then tree.compact else tree
        full := false
        kind := n.kind
        span := ⟨n.start, edit.resize n.label.width⟩
        compacted := tree.isSparse }
    | none =>
      return {
        tree := parse text { opts with generation }
        full := true
        kind := .document
        span := ⟨0, text.length⟩
        compacted := true }

end Tree

end AvroIdl
