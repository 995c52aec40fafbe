import Depot.Link
import Depot.Source

/-!
# Storage in a bucket

A bucket keeps the files and the bundle of a resource as objects of an object store, under the
paths of their keys. It makes no bundles: the link to one is a URL that the store signs.

This is `CloudStorage` (the specification, sections 4.2 and 6): `failed` and `missingOrFailed` are
`map_store_error`, `putFile` is `put_file` of `CloudSink`, and the last four are its operations as a
`ResourceStorage`. Each request to the store is one step.

Out of scope: what is logged, and the transport of requests; what a store can answer is in
`Depot.Object.Store`.
-/

namespace Depot

/-- A bucket in which resources are stored. -/
structure Bucket where
  /-- The name of the service in messages. -/
  provider : String
  store : StoreRef
  linkLifetime : Lifetime
  deriving DecidableEq

namespace Bucket

/-- A request that failed in one of its steps. -/
def failed (b : Bucket) (step key : String) (e : StoreError) : StorageError :=
  .backend (.request b.provider step key) (some (.store e))

/-- A request for an object that failed: the object may be missing. -/
def missingOrFailed (b : Bucket) (step key : String) : StoreError → StorageError
  | .notFound => .notFound key (some (.store .notFound))
  | e => b.failed step key e

/-- Puts a content under a key. -/
def putKey (b : Bucket) (key : String) (content : Content) : Action Unit :=
  Action.ofReply (b.failed "put" key) (.ofCall (.put b.store (.ofKey key) content))

/-- `put_file`: stores a file at its relative key below a stem. -/
def putFile (b : Bucket) (stem : String) (relative : String) (file : Handle) : Action Unit := do
  let key := stem ++ "/" ++ relative
  let content ← Action.trying (.readSource key) (.ofCall (.read file))
  b.putKey key content

/-- `get_file`: reads a file of a resource. -/
def getFile (b : Bucket) (r : Resource) (path : String) : Action Content := do
  Action.checkResource r
  let key ← Action.check ((r.fileKey path).mapError .invalid)
  let content ← Action.ofReply (b.missingOrFailed "get" key) (.ofCall (.get b.store (.ofKey key)))
  Action.ofReply (b.failed "get bytes" key) (.ofCall (.body b.store content))

/-- `download`: the link to the bundle of a resource. -/
def download (b : Bucket) (r : Resource) : Action Link := do
  Action.checkResource r
  let key := r.bundleKey
  let path := ObjectPath.ofKey key
  Action.ofReply (b.missingOrFailed "head" key) (.ofCall (.head b.store path))
  let url ← Action.ofReply (b.failed "signing" key) (.ofCall (.sign b.store path b.linkLifetime))
  return .url url

/-- `upload_dir`: stores the files of a folder as files of a resource. -/
def uploadDir (b : Bucket) (r : Resource) (source : Path) : Action Unit := do
  Action.checkResource r
  uploadEach source (b.putFile r.stem)

/-- Reads a whole file. -/
def readFile (p : Path) : Action Content := do
  let file ← Action.trying (.readBundle p) (.ofCall (.openFile p))
  Action.trying (.readBundle p) (.ofCall (.read file))

/-- `upload_zip`: stores a file as the bundle of a resource. -/
def uploadZip (b : Bucket) (r : Resource) (bundle : Path) : Action Unit := do
  Action.checkResource r
  checkBundleFile bundle
  let content ← readFile bundle
  b.putKey r.bundleKey content

end Bucket

end Depot
