import Depot.Resource

/-!
# Failures of a storage

A `StorageError` says what failed and keeps the `Cause` that the failure was noticed by. The text
of an error is given by `StorageError.message`; it does not show the cause.

An operation of the system fails with an `IoError`, whose kind is what callers branch on. A
request to an object store fails with a `StoreError`.

The errors and their texts are those of `StorageError` (the specification, sections 7 and 10.2);
`ofIo` is `from_io`, `isNotFound` is `is_not_found`.

Out of scope: `Internal`, the error of a task that panicked.
-/

namespace Depot

/-- The kinds of failing system operations. -/
inductive IoKind where
  | notFound
  | permissionDenied
  | alreadyExists
  | notADirectory
  | isADirectory
  | directoryNotEmpty
  | filesystemLoop
  | invalidFilename
  | invalidInput
  | inputOutput
  | resourceBusy
  | fileTooLarge
  /-- No such device or address, which has no kind of its own. -/
  | noSuchDevice
  /-- A kind that no operation of this library gives. -/
  | other (name : String)
  deriving DecidableEq, Repr

/-- The text that the system has for a failure of this kind. -/
def IoKind.text : IoKind → String
  | .notFound => "No such file or directory (os error 2)"
  | .permissionDenied => "Permission denied (os error 13)"
  | .alreadyExists => "File exists (os error 17)"
  | .notADirectory => "Not a directory (os error 20)"
  | .isADirectory => "Is a directory (os error 21)"
  | .directoryNotEmpty => "Directory not empty (os error 39)"
  | .filesystemLoop => "Too many levels of symbolic links (os error 40)"
  | .invalidFilename => "File name too long (os error 36)"
  | .invalidInput => "file name contained an unexpected NUL byte"
  | .inputOutput => "Input/output error (os error 5)"
  | .resourceBusy => "Device or resource busy (os error 16)"
  | .fileTooLarge => "File too large (os error 27)"
  | .noSuchDevice => "No such device or address (os error 6)"
  | .other name => name

/-- A failed operation of the system. -/
structure IoError where
  kind : IoKind
  text : String
  deriving DecidableEq, Repr

/-- The failure that the system itself reports for a kind. -/
def IoError.ofKind (kind : IoKind) : IoError :=
  ⟨kind, kind.text⟩

/-- A failed request to an object store. -/
inductive StoreError where
  | notFound
  | other
  deriving DecidableEq, Repr

/-- What a failure was noticed by. -/
inductive Cause where
  | io (e : IoError)
  | walk (kind : IoKind)
  | store (e : StoreError)
  | defect (d : Defect)
  | other
  deriving DecidableEq, Repr

/-- The text of a cause that has one of its own. -/
def Cause.text? : Cause → Option String
  | .io e => some e.text
  | .defect d => some d.message
  | .walk _ | .store _ | .other => none

/-- What a backend was about to do when it failed. -/
inductive Attempt where
  | access (key : String)
  | stat (path : Path)
  | walk (dir : Path)
  | openFile (path : Path)
  | create (path : Path)
  | write (path : Path)
  | makeDirectory (path : Path)
  | addEntry (key : String)
  | compress (key : String)
  | finish (path : Path)
  | moveBundle (dest : Path)
  | copyBundle (dest : Path)
  | readBundle (path : Path)
  | readSource (key : String)
  | request (provider : String) (step : String) (key : String)
  | connect (service : String) (bucket : String)
  | described (text : String)
  deriving DecidableEq

/-- The pieces of the text of an attempt that failed. -/
def Attempt.pieces : Attempt → List String
  | .access key => ["I/O failed for ", key]
  | .stat path => ["Failed to stat ", path.display]
  | .walk dir => ["Failed to walk ", dir.display]
  | .openFile path => ["Failed to open ", path.display]
  | .create path => ["Failed to create ", path.display]
  | .write path => ["Failed to write ", path.display]
  | .makeDirectory path => ["Failed to create directory ", path.display]
  | .addEntry key => ["Failed to add ", key]
  | .compress key => ["Failed to compress ", key]
  | .finish path => ["Failed to finish ", path.display]
  | .moveBundle dest => ["Failed to move bundle to ", dest.display]
  | .copyBundle dest => ["Failed to copy bundle to ", dest.display]
  | .readBundle path => ["Failed to read ", path.display]
  | .readSource key => ["Failed to read source for ", key]
  | .request provider step key => [provider, " ", step, " failed for ", key]
  | .connect service bucket => ["Failed to create ", service, " client for ", bucket]
  | .described text => [text]

/-- The text of an attempt that failed. -/
def Attempt.message (a : Attempt) : String :=
  String.join a.pieces

/-- Why a setting could not be understood. -/
inductive ConfigDefect where
  | noPath (uri : String)
  | noBucket (uri : String)
  | noHome
  | described (text : String)
  deriving DecidableEq, Repr

/-- The pieces of the text of a setting's defect. -/
def ConfigDefect.pieces : ConfigDefect → List String
  | .noPath uri => ["local storage URI must include a path: ", uri]
  | .noBucket uri => ["storage URI must include a bucket name: ", uri]
  | .noHome => ["Cannot determine home directory"]
  | .described text => [text]

/-- The text of a setting's defect. -/
def ConfigDefect.message (d : ConfigDefect) : String :=
  String.join d.pieces

/-- Why an operation of a storage failed. -/
inductive StorageError where
  /-- The resource, or a path in it, cannot be addressed. -/
  | invalid (defect : Defect)
  /-- Nothing is stored under the key. -/
  | notFound (key : String) (cause : Option Cause)
  /-- The folder to upload does not exist. -/
  | sourceNotFound (path : Path)
  /-- The folder to upload holds no regular file. -/
  | sourceEmpty (path : Path)
  /-- What should be a folder to upload is something else. -/
  | sourceFile (path : Path)
  /-- The bundle to upload is no regular file. -/
  | bundleMissing (path : Path)
  /-- The disk or the object store failed. -/
  | backend (attempt : Attempt) (cause : Option Cause)
  /-- A setting could not be understood. -/
  | config (defect : ConfigDefect)
  /-- Something failed that cannot fail. -/
  | internal (text : String)
  deriving DecidableEq

namespace StorageError

/-- The pieces of the text of an error. -/
def pieces : StorageError → List String
  | .invalid defect => ["invalid resource format: ", defect.message]
  | .notFound key _ => ["resource not found: ", key]
  | .sourceNotFound path => ["source folder not found: ", path.display]
  | .sourceEmpty path => ["source folder is empty: ", path.display]
  | .sourceFile path => ["source is a file, not a folder: ", path.display]
  | .bundleMissing path => ["zip file missing: ", path.display]
  | .backend attempt _ => ["storage backend error: ", attempt.message]
  | .config defect => ["configuration error: ", defect.message]
  | .internal text => ["internal error: ", text]

/-- The text of an error. -/
def message (e : StorageError) : String :=
  String.join e.pieces

/-- What the error was noticed by. -/
def cause? : StorageError → Option Cause
  | .invalid defect => some (.defect defect)
  | .notFound _ cause | .backend _ cause => cause
  | _ => none

/-- Whether the error says that nothing is stored under the key. -/
def isNotFound : StorageError → Bool
  | .notFound .. => true
  | _ => false

/-- A failed system operation for a key: a missing file means that nothing is stored there. -/
def ofIo (key : String) (e : IoError) : StorageError :=
  if e.kind = .notFound then .notFound key (some (.io e)) else .backend (.access key) (some (.io e))

/-- A backend failure that the system reported. -/
def system (attempt : Attempt) (kind : IoKind) : StorageError :=
  .backend attempt (some (.io (.ofKind kind)))

end StorageError

end Depot
