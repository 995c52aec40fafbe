import Depot.Archive
import Depot.Procedure

/-!
# The disk of the machine

`Disk.perform` runs a procedure on the disk of the machine. A `Place` is there the list of names
that leads from the root to a file without passing through links, so an open file can be named by
its place after it was closed. Permissions cannot be read and are taken to be those of new files;
object stores are out of reach.
-/

namespace Depot.Disk

/-- The kind of a failure by the number that the system has for it. -/
def kindOfCode (code : UInt32) : IoKind :=
  match code.toNat with
  | 2 => .notFound
  | 5 => .inputOutput
  | 6 => .noSuchDevice
  | 13 => .permissionDenied
  | 16 => .resourceBusy
  | 17 => .alreadyExists
  | 20 => .notADirectory
  | 21 => .isADirectory
  | 22 => .invalidInput
  | 27 => .fileTooLarge
  | 36 => .invalidFilename
  | 39 => .directoryNotEmpty
  | 40 => .filesystemLoop
  | n => .other ("system error " ++ n.repr)

/-- The kind of a failure. -/
def kindOf : IO.Error → IoKind
  | .alreadyExists _ code _ | .otherError code _ | .resourceBusy code _ | .resourceVanished code _
  | .unsupportedOperation code _ | .hardwareFault code _ | .unsatisfiedConstraints code _
  | .illegalOperation code _ | .protocolError code _ | .timeExpired code _
  | .interrupted _ code _ | .noFileOrDirectory _ code _ | .invalidArgument _ code _
  | .permissionDenied _ code _ | .resourceExhausted _ code _ | .inappropriateType _ code _
  | .noSuchThing _ code _ => kindOfCode code
  | .unexpectedEof => .inputOutput
  | .userError text => .other text

/-- What may fail with a kind. -/
abbrev Try := ExceptT IoKind IO

/-- What the system does, with the kind of its failure. -/
def trying {α : Type} (action : IO α) : Try α :=
  ExceptT.mk do return (← action.toBaseIO).mapError kindOf

/-- The text of a path that the system can be asked with. -/
def spelling (p : Path) : Try String :=
  if p.bytes.contains 0 then throw .invalidInput
  else
    match Text.decode? p.bytes with
    | some s => return s
    | none => throw (.other "path is no text")

/-- The path of a place. -/
def pathOf (place : Place) : Path :=
  ⟨slash :: Text.joinWith slash (place.map Name.bytes)⟩

/-- The place that a path leads to. -/
def placeOf (p : Path) : Try Place := do
  let path ← spelling p
  let real ← trying (IO.FS.realPath path)
  return (Path.ofString real.toString).components.filterMap fun
    | .name n => some n
    | _ => none

/-- The kind of a type of file. -/
def kindOfType : IO.FS.FileType → FileKind
  | .file => .file
  | .dir => .directory
  | .symlink | .other => .other

/-- The kind of what a path leads to. -/
def stat (p : Path) : Try FileKind := do
  let path ← spelling p
  let real ← trying (IO.FS.realPath path)
  return kindOfType (← trying real.metadata).type

/-- Whether a path leads to a file. -/
def isFile (p : Path) : Try Bool :=
  tryCatch (do return (← stat p) = .file) fun _ => return false

/-- Opens what a path leads to. -/
def openWith (mode : IO.FS.Mode) (p : Path) : Try Place := do
  let path ← spelling p
  let _ ← trying (IO.FS.Handle.mk path mode)
  placeOf p

/-- Reads a file. -/
def readAt (place : Place) : Try Content := do
  let path ← spelling (pathOf place)
  return .plain (← trying (IO.FS.readBinFile path)).toList

/-- Writes a file. -/
def writeAt (place : Place) (content : Content) : Try Unit := do
  let path ← spelling (pathOf place)
  trying (IO.FS.writeBinFile path ⟨content.octets.toArray⟩)

/-- Passes on what a file gives, chunk by chunk. -/
partial def passOn (file copy : IO.FS.Handle) : Try Unit := do
  let chunk ← trying (file.read 65536)
  unless chunk.isEmpty do
    trying (copy.write chunk)
    passOn file copy

/-- Copies a file to an emptied one, as far as the one can be read and the other written. -/
def copyAt (source dest : Place) : Try Unit := do
  let file ← trying (IO.FS.Handle.mk (← spelling (pathOf source)) .read)
  let copy ← trying (IO.FS.Handle.mk (← spelling (pathOf dest)) .write)
  passOn file copy
  trying copy.flush

/-- Copies a file. -/
def copyFile (source dest : Path) : Try Unit := do
  let file ← openWith .read source
  copyAt file (← openWith .write dest)

/-- Makes a directory. -/
def makeDirectory (p : Path) : Try Unit := do
  let path ← spelling p
  trying (IO.FS.createDir path)

/-- Makes the first directory of a list, if need be after those behind it; one that is there
already does as well. -/
def makeFirst : List Path → Try Unit
  | [] => return ()
  | p :: above => do
    let isThere (kind : IoKind) : Try Unit :=
      tryCatch (do if (← stat p) = .directory then return () else throw kind) fun _ => throw kind
    tryCatch (makeDirectory p) fun
      | .notFound => do
        makeFirst above
        tryCatch (makeDirectory p) isThere
      | kind => isThere kind

/-- The files at and below a path, where `names` lead. -/
partial def walkFrom (names : List Name) (p : Path) (type : IO.FS.FileType) :
    Try (List Found) := do
  match type with
  | .file => return [⟨names, p⟩]
  | .symlink => return if ← isFile p then [⟨names, p⟩] else []
  | .other => return []
  | .dir =>
    let path ← spelling p
    let real ← trying (IO.FS.realPath path)
    let entries ← trying real.readDir
    let found ← entries.toList.filterMapM fun entry => do
      match Name.ofBytes? (Text.encode entry.fileName) with
      | some n => return some (n, (← trying entry.path.symlinkMetadata).type)
      | none => return none
    let sorted := found.mergeSort fun a b => !b.1.before a.1
    return (← sorted.mapM fun e => walkFrom (names ++ [e.1]) (p.child e.1) e.2).flatten

/-- The files below a path, which may lead through links. -/
def walk (p : Path) : Try (List Found) := do
  let path ← spelling p
  let real ← trying (IO.FS.realPath path)
  walkFrom [] p (← trying real.metadata).type

/-- Thirty-two hexadecimal digits at random. -/
def nonce : IO Bytes := do
  let octets ← IO.getRandomBytes 16
  let digits := octets.toList.flatMap fun b => [b.toNat / 16, b.toNat % 16]
  return Text.encode (String.ofList (digits.map Nat.digitChar))

/-- Answers a call. -/
def answer : (c : Call) → IO c.Reply
  | .stat p => (stat p).run
  | .walk p => (walk p).run
  | .openFile p => (openWith .read p).run
  | .mode _ => return Volume.fileMode
  | .read place => (readAt place).run
  | .makeDirectories p => (makeFirst (Volume.upwards (p.bytes.length + 1) p)).run
  | .create p => (openWith .write p).run
  | .write place content => (writeAt place content).run
  | .copy source dest => (copyAt source dest).run
  | .copyFile p q => (copyFile p q).run
  | .remove p => (spelling p >>= fun path => trying (IO.FS.removeFile path)).run
  | .rename p q =>
    (do
      let old ← spelling p
      let new ← spelling q
      trying (IO.FS.rename old new) : Try Unit).run
  | .nonce => nonce
  | .put .. | .head .. | .get .. | .body .. | .sign .. => return .error .other

/-- Runs a procedure. -/
def perform {α : Type} : Procedure α → IO α
  | .done a => return a
  | .ask c next => do perform (next (← answer c))

end Depot.Disk
