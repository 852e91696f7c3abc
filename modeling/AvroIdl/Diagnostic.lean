import AvroIdl.Span

/-!
# Diagnostics

A diagnostic is a problem found in a document. Every part of the analysis reports problems this
way, and none of them stops it.
-/

namespace AvroIdl

/-- How grave a problem is. Levels without a name are kept as they are. -/
inductive Severity where
  | error
  | warning
  | info
  | unnamed (level : Nat)
  deriving DecidableEq, Repr

namespace Severity

def ofNat : Nat → Severity
  | 1 => .error
  | 2 => .warning
  | 3 => .info
  | n => .unnamed n

def name : Severity → Bytes
  | .error => "error"
  | .warning => "warning"
  | .info => "info"
  | .unnamed n => Bytes.join ["Severity(", Bytes.ofNat n, ")"]

end Severity

/-- A second place involved in a problem, such as the earlier of two declarations. -/
structure Related where
  uri : Bytes
  span : Span
  message : Bytes
  deriving DecidableEq, Repr

/-- A problem at a place of a document. -/
structure Diagnostic where
  code : Nat
  severity : Severity
  message : Bytes
  span : Span
  uri : Bytes := []
  related : List Related := []
  deriving DecidableEq, Repr

namespace Diagnostic

/-- The code and message, marked with `E` for errors and with `W` for all else. -/
def text (d : Diagnostic) : Bytes :=
  Bytes.join [if d.severity = .error then "E" else "W", Bytes.ofNat d.code, ": ", d.message]

/-- A text that tells diagnostics apart by what they say. -/
def key (d : Diagnostic) : Bytes :=
  Bytes.join [d.uri, "|", Bytes.ofNat d.code, "|", Bytes.ofNat d.span.start, ":",
    Bytes.ofNat d.span.len, "|", d.message]

/-- The diagnostic with one more place. -/
def relate (d : Diagnostic) (r : Related) : Diagnostic := { d with related := d.related ++ [r] }

end Diagnostic

end AvroIdl
