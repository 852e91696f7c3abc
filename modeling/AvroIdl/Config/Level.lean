import AvroIdl.Text.Case

/-!
# Log levels
-/

namespace AvroIdl

/-- How much is logged. -/
inductive LogLevel where
  | panic
  | fatal
  | error
  | warning
  | info
  | debug
  | trace
  deriving DecidableEq, Repr

namespace LogLevel

def all : List LogLevel := [panic, fatal, error, warning, info, debug, trace]

def name : LogLevel → Bytes
  | panic => "panic"
  | fatal => "fatal"
  | error => "error"
  | warning => "warning"
  | info => "info"
  | debug => "debug"
  | trace => "trace"

/-- The level with a name, in any case. -/
def ofName? (s : Bytes) : Option LogLevel :=
  let name' := s.lower
  if name' = Bytes.ofString "warn" then some warning else all.find? fun l => l.name = name'

end LogLevel

end AvroIdl
