import Depot.Procedure

/-!
# Folders to upload

`collect` lists the files below a folder with their keys, and `uploadTree` hands them to a `Sink`
one after the other, up to the first that cannot be opened or that the sink refuses. Before the
sink sees anything, the folder has to be one and to hold a file.

`collect` is `collect_files` and `uploadTree` is `upload_tree` (the specification, section 4.2); a
`Sink` is a `FileSink`, which may keep a state. `checkSourceFolder` and `checkBundleFile` are
`check_source_dir` and `check_zip_file`.
-/

namespace Depot

/-- A file to upload: its key relative to the folder, and its path. -/
structure SourceFile where
  key : String
  path : Path
  deriving DecidableEq

/-- A file that a walk found, with the names to it joined to a key. -/
def SourceFile.ofFound (f : Found) : SourceFile :=
  ⟨Resource.relativeKey f.names, f.path⟩

/-- What becomes of a file with its relative key; a sink may keep a state. -/
abbrev Sink (σ : Type) := String → Handle → σ → Procedure (Except StorageError Unit × σ)

/-- An action for each file is a sink without a state. -/
def Sink.ofAction (f : String → Handle → Action Unit) : Sink Unit := fun key file _ =>
  (f key file).run.bind fun r => .done (r, ())

/-- `collect_files`: lists the files below a folder, in the order of a walk. -/
def collect (dir : Path) : Action (List SourceFile) :=
  Action.ofReply (fun k => .backend (.walk dir) (some (.walk k)))
    ((Procedure.ofCall (.walk dir)).bind fun found =>
      .done (found.map fun fs => fs.map SourceFile.ofFound))

/-- `check_source_dir`: refuses what is no folder. -/
def checkSourceFolder (source : Path) : Action Unit :=
  Action.concluding (.stat source) fun
    | .ok .directory => .ok ()
    | .ok _ => .error (.sourceFile source)
    | .error .notFound => .error (.sourceNotFound source)
    | .error k => .error (.system (.stat source) k)

/-- `check_zip_file`: refuses what is no file. -/
def checkBundleFile (bundle : Path) : Action Unit :=
  Action.concluding (.stat bundle) fun
    | .ok .file => .ok ()
    | _ => .error (.bundleMissing bundle)

/-- The files of a folder, which has to hold one. -/
def sourceFiles (source : Path) : Action (List SourceFile) := do
  checkSourceFolder source
  match ← collect source with
  | [] => throw (.sourceEmpty source)
  | files => return files

/-- Hands files to a sink, up to the first failure. -/
def putAll {σ : Type} (sink : Sink σ) :
    List SourceFile → σ → Procedure (Except StorageError Unit × σ)
  | [], s => return (.ok (), s)
  | f :: rest, s => do
    match ← Procedure.ofCall (.openFile f.path) with
    | .error k => return (.error (.system (.openFile f.path) k), s)
    | .ok file =>
      match ← sink f.key file s with
      | (.error e, s) => return (.error e, s)
      | (.ok (), s) => putAll sink rest s

/-- `upload_tree`: hands the files of a folder to a sink and gives their number. -/
def uploadTree {σ : Type} (source : Path) (sink : Sink σ) (s : σ) :
    Procedure (Except StorageError Nat × σ) := do
  match ← (sourceFiles source).run with
  | .error e => return (.error e, s)
  | .ok files =>
    match ← putAll sink files s with
    | (.error e, s) => return (.error e, s)
    | (.ok (), s) => return (.ok files.length, s)

/-- Hands the files of a folder to an action, one by one. -/
def uploadEach (source : Path) (f : String → Handle → Action Unit) : Action Unit :=
  ExceptT.mk ((uploadTree source (.ofAction f) ()).bind fun r => .done (r.1.map fun _ => ()))

end Depot
