import AvroIdl.Yaml.Token.Stream

/-!
# Documents of YAML

`Node.ofText?` reads the first document of a text.
-/

namespace AvroIdl.Yaml

/-- A part of a document. -/
inductive Node where
  /-- A scalar with its tag. One without quotes may have none. -/
  | scalar (tag : Option Bytes) (text : Bytes)
  | sequence (items : List Node)
  | mapping (entries : List (Node × Node))
  /-- Another place of the part with an anchor. There is no target if that part contains the alias
  itself. -/
  | alias (name : Bytes) (target : Option Node)
  deriving Repr

/-- The part of a document where nothing stands. -/
def Node.empty : Node := .scalar none []

/-- The tag of texts. -/
def textTag : Bytes := "!!str"

/-- The tag of the key under which a mapping takes in others. -/
def mergeTag : Bytes := "!!merge"

/-- The text of the key under which a mapping takes in others. -/
def mergeText : Bytes := "<<"

/-- What the handle of two marks stands for. -/
def standardTags : Bytes := "tag:yaml.org,2002:"

/-- A tag in its short form. -/
def shortTag (tag : Bytes) : Bytes :=
  if standardTags.isPrefixOf tag then Bytes.join ["!!", tag.drop standardTags.length] else tag

/-- The scalar with a tag, if it is given one other than the mark alone. -/
def Node.ofScalar (tag : Option Bytes) (text : Bytes) (plain : Bool) : Node :=
  match tag.filter (· ≠ Bytes.ofString "!") with
  | some tag => .scalar (some (shortTag tag)) text
  | none =>
    if !plain then .scalar (some textTag) text
    else if text = mergeText then .scalar (some mergeTag) text
    else .scalar none text

/-- What stands before a node. -/
structure Properties where
  anchor : Option Bytes := none
  tag : Option Bytes := none
  deriving DecidableEq, Repr

/-- What is known between two parts of a document. -/
structure Reader where
  lexer : Lexer
  /-- What handles stand for. -/
  handles : List (Bytes × Bytes) := []
  /-- The parts with an anchor, the latest one first. Those that go on are left open. -/
  anchors : List (Bytes × Option Node) := []

/-- A step of reading a document, which fails where it is malformed. -/
abbrev Read := StateT Reader Option

namespace Read

/-- Finds tokens. -/
def scan {α : Type} (step : Scan α) : Read α := do
  let r ← get
  let (a, lexer) ← step.run r.lexer
  set { r with lexer }
  return a

def peek : Read Token := scan Scan.peek

def take : Read Unit := scan Scan.take

/-! ## Anchors and tags -/

/-- Gives an anchor to a part of a document. -/
def define (name : Option Bytes) (target : Option Node) : Read Unit := do
  if let some name := name then modify fun r => { r with anchors := (name, target) :: r.anchors }

/-- The part at an alias. -/
def resolve (name : Bytes) : Read Node := do
  let target ← (← get).anchors.lookup name
  return .alias name target

/-- Ends a part with an anchor. It keeps the anchor unless a part of it has got the same one. -/
def finish (name : Option Bytes) (found : Node) : Read Node := do
  if let some key := name then
    if let some none := (← get).anchors.lookup key then define name (some found)
  return found

/-- The tag that a handle and a suffix stand for. -/
def tagOf (handle suffix : Bytes) : Read Bytes := do
  if handle.isEmpty then return suffix
  else
    let meaning ← (← get).handles.lookup handle
    return meaning ++ suffix

/-- Takes an anchor, if there is one. -/
def anchor? : Read (Option Bytes) := do
  match ← peek with
  | .anchor name =>
    take
    return some name
  | _ => return none

/-- Takes a tag, if there is one. -/
def tag? : Read (Option (Bytes × Bytes)) := do
  match ← peek with
  | .tag handle suffix =>
    take
    return some (handle, suffix)
  | _ => return none

/-- Takes an anchor and a tag, in either order. -/
def properties : Read Properties := do
  let before ← anchor?
  let tag ← tag?
  let anchor ← if before.isNone && tag.isSome then anchor? else pure before
  match tag with
  | none => return { anchor }
  | some (handle, suffix) => return { anchor, tag := some (← tagOf handle suffix) }

/-! ## Parts -/

/-- A part, or nothing if what stands here cannot begin one. -/
def orEmpty (stops : List Token) (part : Read Node) : Read Node := do
  if stops.contains (← peek) then return Node.empty else part

mutual

/-- Reads a part within so many steps. Outside of brackets it may be a block, and as the value of a
key a sequence that is not indented. -/
def node (block indentless : Bool) : Nat → Read Node
  | 0 => failure
  | n + 1 => do
    match ← peek with
    | .alias name =>
      take
      resolve name
    | _ =>
      let p ← properties
      match ← peek, block, indentless with
      | .scalar text plain, _, _ =>
        take
        let found := Node.ofScalar p.tag text plain
        define p.anchor (some found)
        return found
      | .flowSequenceStart, _, _ =>
        take
        define p.anchor none
        finish p.anchor (.sequence (← flowItems true n))
      | .flowMappingStart, _, _ =>
        take
        define p.anchor none
        finish p.anchor (.mapping (← flowEntries true n))
      | .blockSequenceStart, true, _ =>
        take
        define p.anchor none
        finish p.anchor (.sequence (← blockItems n))
      | .blockMappingStart, true, _ =>
        take
        define p.anchor none
        finish p.anchor (.mapping (← blockEntries n))
      | .blockEntry, _, true =>
        define p.anchor none
        finish p.anchor (.sequence (← indentlessItems n))
      | _, _, _ =>
        guard (p ≠ {})
        let found := Node.ofScalar p.tag [] true
        define p.anchor (some found)
        return found

/-- Reads the items of a block within so many steps. -/
def blockItems : Nat → Read (List Node)
  | 0 => failure
  | n + 1 => do
    match ← peek with
    | .blockEntry =>
      take
      let item ← orEmpty [.blockEntry, .blockEnd] (node true false n)
      return item :: (← blockItems n)
    | .blockEnd =>
      take
      return []
    | _ => failure

/-- Reads the items of a block that is not indented within so many steps. -/
def indentlessItems : Nat → Read (List Node)
  | 0 => failure
  | n + 1 => do
    match ← peek with
    | .blockEntry =>
      take
      let item ← orEmpty [.blockEntry, .key, .value, .blockEnd] (node true false n)
      return item :: (← indentlessItems n)
    | _ => return []

/-- Reads the entries of a block within so many steps. -/
def blockEntries : Nat → Read (List (Node × Node))
  | 0 => failure
  | n + 1 => do
    match ← peek with
    | .key =>
      take
      let key ← orEmpty [.key, .value, .blockEnd] (node true true n)
      let value ←
        if (← peek) = .value then do
          take
          orEmpty [.key, .value, .blockEnd] (node true true n)
        else pure Node.empty
      return (key, value) :: (← blockEntries n)
    | .blockEnd =>
      take
      return []
    | _ => failure

/-- Reads the items in brackets within so many steps. An item may be a key with a value. -/
def flowItems (first : Bool) : Nat → Read (List Node)
  | 0 => failure
  | n + 1 => do
    if !first && (← peek) ≠ .flowSequenceEnd then
      guard ((← peek) = .flowEntry)
      take
    match ← peek with
    | .flowSequenceEnd =>
      take
      return []
    | .key =>
      take
      let key ←
        if [Token.value, .flowEntry, .flowSequenceEnd].contains (← peek) then do
          take
          pure Node.empty
        else node false false n
      let value ←
        if (← peek) = .value then do
          take
          orEmpty [.flowEntry, .flowSequenceEnd] (node false false n)
        else pure Node.empty
      return .mapping [(key, value)] :: (← flowItems false n)
    | _ =>
      let item ← node false false n
      return item :: (← flowItems false n)

/-- Reads the entries in braces within so many steps. An entry may be a key alone. -/
def flowEntries (first : Bool) : Nat → Read (List (Node × Node))
  | 0 => failure
  | n + 1 => do
    if !first && (← peek) ≠ .flowMappingEnd then
      guard ((← peek) = .flowEntry)
      take
    match ← peek with
    | .flowMappingEnd =>
      take
      return []
    | .key =>
      take
      let key ← orEmpty [.value, .flowEntry, .flowMappingEnd] (node false false n)
      let value ←
        if (← peek) = .value then do
          take
          orEmpty [.flowEntry, .flowMappingEnd] (node false false n)
        else pure Node.empty
      return (key, value) :: (← flowEntries false n)
    | _ =>
      let key ← node false false n
      return (key, Node.empty) :: (← flowEntries false n)

end

/-! ## Documents -/

/-- The handles that need no directive. -/
def standardHandles : List (Bytes × Bytes) := [("!", "!"), ("!!", standardTags)]

/-- Takes the directives of a document within so many steps. Each handle and the version may be given
once, and the version is 1.1. -/
def directivesWithin : Nat → Bool → Read Unit
  | 0, _ => failure
  | n + 1, hasVersion => do
    match ← peek with
    | .version major minor =>
      guard (!hasVersion && major = 1 && minor = 1)
      take
      directivesWithin n true
    | .handle name meaning =>
      guard ((← get).handles.lookup name).isNone
      modify fun r => { r with handles := r.handles ++ [(name, meaning)] }
      take
      directivesWithin n hasVersion
    | _ => modify fun r => { r with handles := r.handles ++ standardHandles }

/-- Reads the first document, if there is one, and takes the mark of its end. -/
def document (size : Nat) : Read (Option Node) := do
  guard ((← peek) = .streamStart)
  take
  let first ← peek
  if first = .streamEnd then return none
  else
    directivesWithin size false
    let isDirective : Token → Bool
      | .version _ _ => true
      | .handle _ _ => true
      | _ => false
    let found ←
      if first = .documentStart || isDirective first then do
        guard ((← peek) = .documentStart)
        take
        let next ← peek
        if isDirective next || [Token.documentStart, .documentEnd, .streamEnd].contains next then
          pure Node.empty
        else node true false size
      else node true false size
    if (← peek) = .documentEnd then take
    return some found

end Read

/-- The first document of a text, if it is well formed. A text without one has no document. -/
def Node.ofText? (s : Bytes) : Option (Option Node) :=
  let lexer := Lexer.ofText s
  (Read.document (8 * lexer.size) |>.run { lexer }).map (·.1)

end AvroIdl.Yaml
