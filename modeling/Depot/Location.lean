import Depot.Error

/-!
# Where resources are stored

A storage is named by a URI:

* `s3://bucket/…?region=r&endpoint=e` is a bucket of an S3 service,
* `gs://bucket/…` and `gcs://bucket/…` are a bucket of Google Cloud Storage,
* `local://path` and any other text are a folder on disk, in which a leading `~/` or `~\` stands
  for the home folder.

`ofUri` is `parse` of `StorageUri` (the specification, sections 6 and 10.4), `bucketOf` and
`queryValue?` are `parse_bucket` and `extract_query_param`. The home folder is given, as `home_dir`
finds it.

Out of scope: escapes in a URI, which are left as they are.
-/

namespace Depot

open Text

/-- A folder on disk or a bucket of a service. -/
inductive Location where
  | folder (path : Path)
  | s3 (bucket : String) (region endpoint : Option String)
  | gcs (bucket : String)
  deriving DecidableEq

namespace Location

/-- A parameter of a URI's query, cut at its first `=`. -/
def parameter (pair : List Char) : List Char × Option (List Char) :=
  match pair.dropWhile (· != '=') with
  | [] => (pair, none)
  | _ :: value => (pair.takeWhile (· != '='), some value)

/-- The value of the first parameter with the given name; the query ends at a second `?`. -/
def queryValue? (uri : List Char) (name : String) : Option String := do
  let query ← (splitOn '?' uri)[1]?
  let (_, value) ← ((splitOn '&' query).map parameter).find? (·.1 = name.toList)
  value.map String.ofList

/-- The bucket that the rest of a URI begins with. -/
def bucketOf (uri : String) (rest : List Char) : Except StorageError String :=
  match rest.takeWhile fun c => c != '?' && c != '/' with
  | [] => .error (.config (.noBucket uri))
  | bucket => .ok (String.ofList bucket)

/-- A path with its leading `~` expanded; a home folder that is no text is as good as none. -/
def expandHome (home : Option Bytes) (path : List Char) : Except StorageError Path :=
  match path with
  | '~' :: '/' :: rest | '~' :: '\\' :: rest =>
    match home.bind decode? with
    | some home => .ok ((Path.ofString home).join (.ofString (String.ofList rest)))
    | none => .error (.config .noHome)
  | _ => .ok (.ofString (String.ofList path))

/-- The folder that a path names. -/
def ofPath (home : Option Bytes) (uri : String) (path : List Char) :
    Except StorageError Location :=
  if path = [] then .error (.config (.noPath uri)) else folder <$> expandHome home path

/-- The location that a URI names. -/
def ofUri (home : Option Bytes) (uri : String) : Except StorageError Location :=
  let text := uri.toList
  match dropStart? "s3://".toList text with
  | some rest => do
    return s3 (← bucketOf uri rest) (queryValue? text "region") (queryValue? text "endpoint")
  | none =>
    match (dropStart? "gs://".toList text).or (dropStart? "gcs://".toList text) with
    | some rest => gcs <$> bucketOf uri rest
    | none => ofPath home uri ((dropStart? "local://".toList text).getD text)

end Location

end Depot
