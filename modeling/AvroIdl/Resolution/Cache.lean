import AvroIdl.Resolution

/-!
# Remembered resolutions

A cache keeps what the references of each document mean, with the stamp of the scope. It is used
again for a scope with the same stamp.
-/

namespace AvroIdl

/-- What was found for a document, and the stamp of the scope in which it was. -/
structure CacheEntry where
  uri : Bytes
  stamp : Bytes
  results : List Resolution
  deriving DecidableEq, Repr

/-- Remembered resolutions, at most one entry for each document. -/
structure Cache where
  entries : List CacheEntry := []
  hits : Nat := 0
  misses : Nat := 0
  deriving DecidableEq, Repr

namespace Cache

/-- The entry of a document. -/
def entry? (c : Cache) (uri : Bytes) : Option CacheEntry := c.entries.find? fun e => e.uri = uri

/-- Drops the entry of a document. -/
def invalidate (c : Cache) (uri : Bytes) : Cache :=
  { c with entries := c.entries.filter fun e => e.uri ≠ uri }

/-- Puts in an entry in the place of that of the same document. -/
def store (c : Cache) (e : CacheEntry) : Cache :=
  { c with entries := e :: (c.invalidate e.uri).entries }

/-- Finds out what the references of a document mean, and remembers it. -/
def refresh (c : Cache) (scope : Scope) : Cache × List Resolution :=
  let results := scope.resolveAll
  ({ c with misses := c.misses + 1 }.store ⟨scope.own.uri, scope.stamp, results⟩, results)

/-- What the references of a document mean. An entry with the stamp of the scope is used as it
is. -/
def resolve (c : Cache) (scope : Scope) : Cache × List Resolution :=
  match c.entry? scope.own.uri with
  | some e =>
    if e.stamp = scope.stamp then ({ c with hits := c.hits + 1 }, e.results) else c.refresh scope
  | none => c.refresh scope

end Cache

end AvroIdl
