import AvroIdl.FileTree
import AvroIdl.LoadError

/-!
# Loading imports

An import is looked for beside the document that imports it, and then in each search path.
-/

namespace AvroIdl

/-- Where imports are loaded from. -/
structure Loader where
  files : FileTree
  searchPaths : List Bytes := []
  /-- Larger files are refused. Zero is no bound. -/
  maxSize : Nat := 0
  deriving DecidableEq, Repr

namespace Loader

/-- The start of URIs that is no part of the path. -/
def scheme : Bytes := "file://"

/-- The path of the document with a URI. -/
def pathOf (uri : Bytes) : Bytes := if scheme.isPrefixOf uri then uri.drop scheme.length else uri

/-- The places where an import may be found, in order. -/
def candidates (l : Loader) (source path : Bytes) : List Bytes :=
  if Path.isAbsolute path then [Path.clean path]
  else Path.join (Path.directory (pathOf source)) path :: l.searchPaths.map (Path.join · path)

/-- The file at the first of some places that has one, with its place. -/
def loadFirst (l : Loader) (path : Bytes) : List Bytes → Except LoadError (Bytes × Bytes)
  | [] => .error (.notFound path)
  | place :: rest =>
    match l.files.file? place with
    | none => loadFirst l path rest
    | some text =>
      if 0 < l.maxSize && l.maxSize < text.length then .error (.tooLarge place l.maxSize)
      else .ok (place, text)

/-- The URI and the text of the document that `source` imports as `path`. -/
def load (l : Loader) (source path : Bytes) (canceled : Bool := false) :
    Except LoadError (Bytes × Bytes) :=
  if canceled then .error .canceled else l.loadFirst path (l.candidates source path)

end Loader

end AvroIdl
