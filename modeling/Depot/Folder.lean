import Depot.Bundle
import Depot.Link

/-!
# Storage in a folder

A folder keeps the files of a resource in a tree below its base, each at the path that its key
spells, and the bundle beside the tree. The bundle is made when it is first asked for and kept
until files are uploaded.

This is `LocalStorage` (the specification, sections 4.2 and 6): `pathOf` is `key_to_path`,
`discardBundle` is `discard_bundle`, `makeDirectories` is `create_dirs`, `putFile` is `put_file` of
`LocalSink`, and the last four are its operations as a `ResourceStorage`. Each call to the system is
one step, and other calls may come between two of them.

Out of scope: what is logged, such as that a bundle could not be removed, and `flush`, which has
nothing left to do when a copy is done.
-/

namespace Depot

/-- A folder in which resources are stored. -/
structure Folder where
  base : Path
  deriving DecidableEq

/-- `create_dirs`: makes a directory and those above it. -/
def makeDirectories (p : Path) : Action Unit :=
  Action.trying (.makeDirectory p) (.ofCall (.makeDirectories p))

namespace Folder

/-- Opens a folder, which is made if it is missing. -/
def make (base : Path) : Action Folder := do
  makeDirectories base
  return ⟨base⟩

/-- `key_to_path`: the path that a key spells. -/
def pathOf (f : Folder) (key : String) : Path :=
  f.base.join (.ofString key)

/-- `discard_bundle`: removes the bundle of a resource, if that is possible. -/
def discardBundle (f : Folder) (r : Resource) : Action Unit := do
  let _ ← Action.ofProcedure (.ofCall (.remove (f.pathOf r.bundleKey)))

/-- Makes the directory that a path is in. -/
def makeParent (p : Path) : Action Unit :=
  match p.parent? with
  | some parent => makeDirectories parent
  | none => return ()

/-- `put_file`: stores a file at its relative key below a root. -/
def putFile (root : Path) (key : String) (file : Handle) : Action Unit := do
  let path := root.join (.ofString key)
  makeParent path
  let out ← Action.trying (.create path) (.ofCall (.create path))
  Action.trying (.write path) (.ofCall (.copy file out))

/-- Reads what is stored under a key. -/
def readKey (f : Folder) (key : String) : Action Content := do
  let fail := fun k => StorageError.ofIo key (.ofKind k)
  let file ← Action.ofReply fail (.ofCall (.openFile (f.pathOf key)))
  Action.ofReply fail (.ofCall (.read file))

/-- `get_file`: reads a file of a resource. -/
def getFile (f : Folder) (r : Resource) (path : String) : Action Content := do
  Action.checkResource r
  let key ← Action.check ((r.fileKey path).mapError .invalid)
  f.readKey key

/-- Whether there is something under a key. -/
def hasKey (f : Folder) (key : String) : Action Bool :=
  Action.concluding (.stat (f.pathOf key)) fun
    | .ok _ => .ok true
    | .error .notFound => .ok false
    | .error k => .error (.ofIo key (.ofKind k))

/-- Refuses a key under which there is no directory. -/
def checkTree (f : Folder) (key : String) : Action Unit :=
  Action.concluding (.stat (f.pathOf key)) fun
    | .ok .directory => .ok ()
    | .ok _ => .error (.notFound key none)
    | .error k => .error (.ofIo key (.ofKind k))

/-- `download`: the link to the bundle of a resource, which is made from its files if there is
none. -/
def download (f : Folder) (r : Resource) : Action Link := do
  Action.checkResource r
  let bundle := f.pathOf r.bundleKey
  if ← f.hasKey r.bundleKey then return .file bundle
  f.checkTree r.stem
  let _ ← Bundle.make (f.pathOf r.stem) bundle
  return .file bundle

/-- `upload_dir`: stores the files of a folder as files of a resource. -/
def uploadDir (f : Folder) (r : Resource) (source : Path) : Action Unit := do
  Action.checkResource r
  f.discardBundle r
  uploadEach source (putFile (f.pathOf r.stem))

/-- `upload_zip`: stores a file as the bundle of a resource. -/
def uploadZip (f : Folder) (r : Resource) (bundle : Path) : Action Unit := do
  Action.checkResource r
  checkBundleFile bundle
  let dest := f.pathOf r.bundleKey
  makeParent dest
  Action.trying (.copyBundle dest) (.ofCall (.copyFile bundle dest))

end Folder

end Depot
