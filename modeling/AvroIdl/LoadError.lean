import AvroIdl.Text.Bytes

/-!
# Failures of loads
-/

namespace AvroIdl

/-- Why an import could not be loaded. -/
inductive LoadError where
  /-- No document is found at the path. -/
  | notFound (path : Bytes)
  /-- The file is larger than it may be. -/
  | tooLarge (file : Bytes) (max : Nat)
  /-- The load was given up. -/
  | canceled
  /-- Reading failed for a reason of its own. -/
  | unreadable (reason : Bytes)
  deriving DecidableEq, Repr

def LoadError.message : LoadError → Bytes
  | .notFound path => Bytes.join ["import not found: ", path]
  | .tooLarge file max => Bytes.join [file, " is larger than ", Bytes.ofNat max, " bytes"]
  | .canceled => "context canceled"
  | .unreadable reason => reason

end AvroIdl
