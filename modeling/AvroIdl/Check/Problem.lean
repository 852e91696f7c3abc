import AvroIdl.Diagnostic
import AvroIdl.Symbol

/-!
# Problems that checks report

The code and the wording of each problem.
-/

namespace AvroIdl

namespace Problem

/-- An error at a place of the document that is checked. -/
def error (code : Nat) (message : Bytes) (span : Span) (related : List Related := []) :
    Diagnostic :=
  { code, severity := .error, message, span, related }

/-- The places where symbols are declared. -/
def declaredHere (symbols : List Symbol) : List Related :=
  symbols.map fun s =>
    { uri := s.uri, span := s.nameSpan, message := Bytes.join [s.render, " is declared here"] }

def duplicateImported (s : Symbol) (others : List Symbol) : Diagnostic :=
  error 3000 (Bytes.join ["Duplicate declaration of ", s.name, ", also declared by an import"])
    s.nameSpan (declaredHere others)

def duplicateBetweenImports (name : Bytes) (span : Span) (others : List Symbol) : Diagnostic :=
  error 3000 (Bytes.join [name, " is declared by more than one import"]) span (declaredHere others)

def importNotFound (path : Bytes) (span : Span) : Diagnostic :=
  error 3001 (Bytes.join ["Import ", path.quoted, " not found"]) span

def importUnreadable (path reason : Bytes) (span : Span) : Diagnostic :=
  error 3002 (Bytes.join ["Cannot read import ", path.quoted, ": ", reason]) span

def importCycle (cycle : List Bytes) (span : Span) (related : List Related) : Diagnostic :=
  error 3003 (Bytes.join ["Import cycle: ", Bytes.joinWith " -> " cycle]) span related

def unknownType (name : Bytes) (span : Span) : Diagnostic :=
  error 3100 (Bytes.join ["Unknown type ", name]) span

def ambiguousType (name : Bytes) (candidates : List Symbol) (span : Span) : Diagnostic :=
  error 3101
    (Bytes.join ["Type ", name, " is ambiguous, candidates: ",
      Bytes.joinWith ", " (candidates.map (·.name))])
    span (declaredHere candidates)

def invalidDefault (type value : Bytes) (span : Span) : Diagnostic :=
  error 3200 (Bytes.join ["Default value ", value, " is not a valid ", type]) span

def unknownEnumDefault (symbol enum : Bytes) (span : Span) : Diagnostic :=
  error 3201 (Bytes.join ["Default ", symbol, " is not a symbol of enum ", enum]) span

def duplicateField (name : Bytes) (span : Span) : Diagnostic :=
  error 3202 (Bytes.join ["Duplicate field ", name]) span

def duplicateEnumSymbol (name : Bytes) (span : Span) : Diagnostic :=
  error 3203 (Bytes.join ["Duplicate enum symbol ", name]) span

def throwsOther (name kind : Bytes) (span : Span) : Diagnostic :=
  error 3204 (Bytes.join ["Cannot throw ", kind, " ", name, ", only error types can be thrown"]) span

def onewayResult (message : Bytes) (span : Span) : Diagnostic :=
  error 3205 (Bytes.join ["One-way message ", message, " must return void"]) span

def importPending (path : Bytes) (span : Span) : Diagnostic :=
  { code := 4000
    severity := .warning
    message := Bytes.join ["Import ", path.quoted,
      " is still loading, references are not checked yet"]
    span }

end Problem

end AvroIdl
