import AvroIdl.Symbol
import AvroIdl.Json.Value

/-!
# The index of a JSON schema or protocol

A protocol contributes the types it declares, and a schema every named type in it. A named type
belongs to the namespace in its own name, else to the one it states, else to that of the record
around it.
-/

namespace AvroIdl

namespace Json

/-- The span of a value between its quotes. Values of one character have none. -/
def innerSpan (v : Json) : Span :=
  if v.raw.length < 2 then ⟨0, 0⟩ else ⟨v.start + 1, v.raw.length - 2⟩

/-- What a schema of a type declares. -/
def symbolKind? (type : Bytes) : Option SymbolKind :=
  [SymbolKind.record, .error, .enum, .fixed].find? fun k => k.name = type

/-- The symbol that a schema of a kind declares within a namespace. -/
def symbol? (uri : Bytes) (generation : UInt64) (space : Bytes) (kind : SymbolKind) (v : Json) :
    Option Symbol := do
  let nameValue ← v.get? "name"
  let name := nameValue.text
  if !nameValue.isString || name.isEmpty then none
  let nameSpace :=
    match Name.qualifier? name with
    | some q => q
    | none => ((v.get? "namespace").map text).getD space
  let isEnum := kind = .enum
  some {
    name := Name.qualify nameSpace name
    nameSpace
    kind
    uri
    generation
    decl := none
    span := ⟨v.start, v.raw.length⟩
    nameSpan := nameValue.innerSpan
    enumSymbols := if isEnum then (((v.get? "symbols").map elements).getD []).map text else []
    enumDefault := if isEnum then textOf (v.get? "default") else [] }

/-- The symbols of a value that stands for a schema within a namespace, in the order of visiting. -/
def symbols (uri : Bytes) (generation : UInt64) (space : Bytes) (v : Json) : List Symbol :=
  match _hv : v with
  | array _ items => items.attach.flatMap fun ⟨i, _⟩ => symbols uri generation space i
  | object _ _ =>
    match _ht : v.get? "type" with
    | none => []
    | some type =>
      if type.isObject || type.isArray then symbols uri generation space type
      else if type.text = Bytes.ofString "array" then
        match _hi : v.get? "items" with
        | some i => symbols uri generation space i
        | none => []
      else if type.text = Bytes.ofString "map" then
        match _hi : v.get? "values" with
        | some i => symbols uri generation space i
        | none => []
      else
        match symbolKind? type.text with
        | none => []
        | some kind =>
          match symbol? uri generation space kind v with
          | none => []
          | some s =>
            let inside :=
              if kind = .record || kind = .error then
                match _hf : v.get? "fields" with
                | some fields =>
                  fields.elements.attach.flatMap fun ⟨f, _⟩ =>
                    match _hg : f.get? "type" with
                    | some t => symbols uri generation s.nameSpace t
                    | none => []
                | none => []
              else []
            s :: inside
  | _ => []
termination_by sizeOf v
decreasing_by
  all_goals subst _hv
  · have := List.sizeOf_lt_of_mem ‹_ ∈ _›
    simp only [array.sizeOf_spec]
    omega
  · exact sizeOf_get? _ht
  · exact sizeOf_get? _hi
  · exact sizeOf_get? _hi
  · have h1 := sizeOf_get? _hf
    have h2 := sizeOf_elements ‹_ ∈ _›
    have h3 := sizeOf_get? _hg
    omega

end Json

namespace Table

/-- The problem of a document that cannot be read. -/
def unreadable (uri reason : Bytes) : Diagnostic :=
  { code := 3002
    severity := .error
    message := Bytes.join ["Cannot read ", uri, ": ", reason]
    span := ⟨0, 0⟩
    uri }

/-- The table of a JSON schema or protocol. What is no JSON has an empty table with a problem. -/
def ofJsonText (serial : Nat) (uri text : Bytes) (generation : UInt64) : Table :=
  let t : Table := { serial, uri, generation }
  match Json.read? text with
  | none => { t with diagnostics := [unreadable uri "invalid JSON"] }
  | some root =>
    let t :=
      match root.get? "protocol" with
      | some name =>
        let space := Json.textOf (root.get? "namespace")
        let protocol : Symbol :=
          { name := Name.qualify space name.text
            nameSpace := space
            kind := .protocol
            uri
            generation
            decl := none
            span := ⟨0, text.length⟩
            nameSpan := name.innerSpan }
        let types := ((root.get? "types").map Json.elements).getD []
        (types.flatMap (Json.symbols uri generation space)).foldl add
          ({ t with nameSpace := space }.add protocol)
      | none => (root.symbols uri generation []).foldl add t
    { t with diagnostics := t.duplicates }

end Table

end AvroIdl
