import Depot.Bucket
import Depot.Config
import Depot.Folder
import Depot.Service

/-!
# Storages

A storage is a folder or a bucket. `Storage.connect` takes the one that the settings name, and the
four operations are those of either.

`connect` is `open_storage`, and the operations are those of `ResourceStorage` (the specification,
section 4.2). A bucket of a service is connected to as far as its client is made; what the service
says is out of scope.
-/

namespace Depot

/-- A folder or a bucket. -/
inductive Storage where
  | folder (f : Folder)
  | bucket (b : Bucket)
  deriving DecidableEq

namespace Storage

/-- A bucket of a service, unless its client is refused. -/
def ofService (provider service bucket : String) (location : Location) (lifetime : Lifetime)
    (refused : Bool) : Action Storage :=
  if refused then throw (.backend (.connect service bucket) (some (.store .other)))
  else return .bucket ⟨provider, .service location, lifetime⟩

/-- Takes the storage at a location. -/
def atLocation (env : Environment) (lifetime : Lifetime) : Location → Action Storage
  | .folder path => folder <$> Folder.make path
  | .s3 name region endpoint =>
    ofService "s3" "S3" name (.s3 name region endpoint) lifetime
      (Service.refusesS3 env name endpoint)
  | .gcs name => do
    ofService "gcs" "GCS" name (.gcs name) lifetime (← Action.ofProcedure (Service.refusesGcs env))

/-- Takes the storage that the settings name. -/
def connect (env : Environment) (config : Config) : Action Storage := do
  let location ← Action.check (Location.ofUri (env.lookup "HOME") config.uri)
  atLocation env config.linkLifetime location

/-- Reads a file of a resource. -/
def getFile : Storage → Resource → String → Action Content
  | .folder f => f.getFile
  | .bucket b => b.getFile

/-- The link to the bundle of a resource. -/
def download : Storage → Resource → Action Link
  | .folder f => f.download
  | .bucket b => b.download

/-- Stores the files of a folder as files of a resource. -/
def uploadDir : Storage → Resource → Path → Action Unit
  | .folder f => f.uploadDir
  | .bucket b => b.uploadDir

/-- Stores a file as the bundle of a resource. -/
def uploadZip : Storage → Resource → Path → Action Unit
  | .folder f => f.uploadZip
  | .bucket b => b.uploadZip

end Storage

end Depot
