import Depot.Path
import Depot.Uuid

/-!
# Resources and their keys

A resource is a version of a tree of files that somebody owns. All that is stored of it has a key
that begins with its `stem`:

* a file of the tree has the key `stem/relative/path` (`fileKey`),
* the bundle of the tree has the key `stem.zip` (`bundleKey`).

`check` says whether a resource can be stored at all. Keys are computed without that check.

`check` is `validate` (the specification, section 4.2), `stem` is `prefix`, `bundleKey` is `zip_key`
and `fileKey` is `file_key`. The layout of keys is that of the specification, section 6.
-/

namespace Depot

open Text

/-- Why a resource, or a path in it, cannot be addressed. -/
inductive Defect where
  | missingOwner
  | missingKind
  | invalidUuid
  | invalidVersion
  | invalidPath
  deriving DecidableEq, Repr

/-- The text of a defect. -/
def Defect.message : Defect → String
  | .missingOwner => "missing owner"
  | .missingKind => "missing kind"
  | .invalidUuid => "invalid uuid"
  | .invalidVersion => "invalid version"
  | .invalidPath => "invalid file path"

/-- A version of a tree of files. -/
structure Resource where
  owner : String
  kind : String
  uuid : String
  version : UInt64
  deriving DecidableEq, Repr

namespace Resource

/-- The first defect of the resource decides: no owner, no kind, a uuid that is not one of
version 4, or version zero. -/
def check (r : Resource) : Except Defect Unit :=
  if r.owner = "" then .error .missingOwner
  else if r.kind = "" then .error .missingKind
  else if (Uuid.parse? r.uuid).bind Uuid.version ≠ some Uuid.randomVersion then .error .invalidUuid
  else if r.version = 0 then .error .invalidVersion
  else .ok ()

/-- What every key of the resource begins with. -/
def stem (r : Resource) : String :=
  r.owner ++ "/" ++ r.kind ++ "/" ++ r.uuid ++ "/" ++ r.version.toNat.repr

/-- The key of the bundle. -/
def bundleKey (r : Resource) : String :=
  r.stem ++ ".zip"

/-- The names of a path that stays inside: it has no component that goes up or starts at the
root, and it names something. -/
def innerNames? (cs : List Component) : Except Defect (List Name) :=
  match cs with
  | [] => .ok []
  | .current :: cs => innerNames? cs
  | .name n :: cs => (n :: ·) <$> innerNames? cs
  | .up :: _ | .root :: _ => .error .invalidPath

/-- Names as a relative key. -/
def relativeKey (names : List Name) : String :=
  "/".intercalate (names.map Name.display)

/-- The key of the file at a path, whose leading slashes do not count. -/
def fileKey (r : Resource) (path : String) : Except Defect String := do
  let relative := Path.ofString (String.ofList (path.toList.dropWhile (· == '/')))
  match ← innerNames? relative.components with
  | [] => .error .invalidPath
  | names => .ok (r.stem ++ "/" ++ relativeKey names)

end Resource

end Depot
