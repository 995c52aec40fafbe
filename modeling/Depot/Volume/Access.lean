import Depot.Archive
import Depot.Volume.Lookup

/-!
# System calls on a volume

Each call either fails with a kind and changes nothing, or gives the changed volume. An open file
is known by its place.

Two operations consist of several calls and may stop half-way, so they give the volume in any
case: `makeDirectories` makes a directory with those above it, and `copyFile` makes or empties its
destination before it reads the source.

A device may fail at any octet of a file that is read (`givenAt`), and a volume may have no room
for the end of a file that is written (`arriving`); what was read or written before stays.

Out of scope: who else has a file open, and a name that is removed while its file is.
-/

namespace Depot

/-- What a path leads to, as far as callers distinguish. -/
inductive FileKind where
  | file
  | directory
  | other
  deriving DecidableEq, Repr

/-- The kind of a node. -/
def Node.kind : Node → FileKind
  | .file .. | .faulty => .file
  | .directory .. => .directory
  | .link _ | .socket => .other

namespace Volume

/-- The permissions of new directories and files. -/
def directoryMode : Mode := 0o755

/-- The permissions of new files. -/
def fileMode : Mode := 0o644

/-! ## Reading -/

/-- The kind of what a path leads to. -/
def stat (v : Volume) (p : Path) : Except IoKind FileKind := do
  return (← v.existing .follow p).2.kind

/-- Whether a path leads to a directory. -/
def isDirectory (v : Volume) (p : Path) : Bool :=
  match v.stat p with
  | .ok .directory => true
  | _ => false

/-- Opens a file, or a directory, for reading. -/
def openFile (v : Volume) (p : Path) : Except IoKind Place := do
  match ← v.existing .follow p with
  | (place, .file mode _) | (place, .directory mode _) =>
    if mode.reads then .ok place else .error .permissionDenied
  | (place, .faulty) => .ok place
  | (_, .socket) | (_, .link _) => .error .noSuchDevice

/-- The permissions of an open file. -/
def modeAt (v : Volume) (p : Place) : Mode :=
  match v.node? p with
  | some (.file mode _) | some (.directory mode _) => mode
  | _ => 0o600

/-- What an open file gives when it is read from its start, and why it ends too early, if it
does. -/
def givenAt (v : Volume) (p : Place) : Content × Option IoKind :=
  match v.node? p with
  | some (.file _ content) => (content, none)
  | some (.directory ..) => (.empty, some .isADirectory)
  | some (@Node.faulty given) => (.plain given, some .inputOutput)
  | _ => (.empty, some .notFound)

/-- Reads an open file from its start to its end. -/
def readAt (v : Volume) (p : Place) : Except IoKind Content :=
  match v.givenAt p with
  | (content, none) => .ok content
  | (_, some k) => .error k

/-! ## Changing -/

/-- Whether entries of a directory may be made and removed. -/
def canChange (v : Volume) (p : Place) : Bool :=
  match v.node? p with
  | some (.directory mode _) => mode.writes && mode.enters
  | _ => false

/-- Puts a new entry into a directory. -/
def addEntry (v : Volume) (directory : Place) (n : Name) (node : Node) : Except IoKind Volume :=
  if v.canChange directory then .ok (v.modify directory (Node.put n node))
  else .error .permissionDenied

/-- The permissions of a new directory, which takes set-group-id from the one it is made in. -/
def directoryModeIn (v : Volume) (parent : Place) : Mode :=
  match v.node? parent with
  | some (.directory mode _) => directoryMode ||| (mode &&& 0o2000)
  | _ => directoryMode

/-- Makes a directory. -/
def makeDirectory (v : Volume) (p : Path) : Except IoKind Volume := do
  match ← v.find .keep p with
  | ⟨directory, some n, none, _⟩ =>
    v.addEntry directory n (.directory (v.directoryModeIn directory) [])
  | _ => .error .alreadyExists

/-- Makes a link. -/
def makeLink (v : Volume) (p target : Path) : Except IoKind Volume := do
  match ← v.find .keep p with
  | ⟨directory, some n, none, closed⟩ =>
    if closed ∨ target.bytes = [] then .error .notFound else v.addEntry directory n (.link target)
  | _ => .error .alreadyExists

/-- Makes a socket. -/
def makeSocket (v : Volume) (p : Path) : Except IoKind Volume := do
  match ← v.find .keep p with
  | ⟨directory, some n, none, closed⟩ =>
    if closed then .error .notFound else v.addEntry directory n .socket
  | _ => .error .alreadyExists

/-- Opens a file for writing: makes one with the given mode, or empties the one that is there. -/
def createWith (v : Volume) (mode : Mode) (p : Path) : Except IoKind (Place × Volume) := do
  let spot ← v.find .create p
  match spot.name, spot.node with
  | none, _ | some _, some (.directory ..) => .error .isADirectory
  | some n, none =>
    (spot.place, ·) <$> v.addEntry spot.directory n (.file mode.masked .empty)
  | some _, some (.file old _) =>
    if old.writes then
      .ok (spot.place, v.modify spot.place fun _ => .file old.afterWrite .empty)
    else .error .permissionDenied
  | some _, some .faulty => .ok (spot.place, v)
  | some _, some .socket | some _, some (.link _) => .error .noSuchDevice

/-- Opens a file for writing. -/
def create (v : Volume) (p : Path) : Except IoKind (Place × Volume) :=
  v.createWith fileMode p

/-- An emptied file with a content; there is nothing to do for an empty content. -/
def fill (v : Volume) (p : Place) (content : Content) : Volume :=
  if content.isEmpty then v
  else v.modify p fun
    | .file mode _ => .file mode.afterWrite content
    | node => node

/-- Whether a file can hold a content. -/
def hasRoom (v : Volume) (content : Content) : Bool :=
  v.largest.all fun n => content.octets.length ≤ n

/-- What arrives of a content that is written: as much as a file can hold. -/
def arriving (v : Volume) (content : Content) : Content :=
  if v.hasRoom content then content else .plain (content.octets.take (v.largest.getD 0))

/-- Writes a content to an emptied file, as much as it can hold. -/
def writeAt (v : Volume) (p : Place) (content : Content) : Except IoKind Unit × Volume :=
  if content.isEmpty then (.ok (), v)
  else
    match v.node? p with
    | some .faulty => (.error .inputOutput, v)
    | _ => (if v.hasRoom content then .ok () else .error .fileTooLarge,
        v.fill p (v.arriving content))

/-- Copies an open file to an emptied one, as far as the one can be read and the other written. -/
def copyAt (v : Volume) (source dest : Place) : Except IoKind Unit × Volume :=
  match v.givenAt source with
  | (content, none) => v.writeAt dest content
  | (content, some k) =>
    let (r, v) := v.writeAt dest content
    (r.bind fun _ => .error k, v)

/-- Sets the permissions of an open file. -/
def setModeAt (v : Volume) (p : Place) (mode : Mode) : Except IoKind Volume :=
  match v.node? p with
  | some .faulty => .error .permissionDenied
  | _ => .ok (v.modify p fun
    | .file _ content => .file mode content
    | .directory _ entries => .directory mode entries
    | node => node)

/-- Removes an entry that is no directory. -/
def remove (v : Volume) (p : Path) : Except IoKind Volume := do
  match ← v.find .keep p with
  | ⟨_, none, _, _⟩ => .error .isADirectory
  | ⟨_, some _, none, _⟩ => .error .notFound
  | ⟨directory, some n, some node, closed⟩ =>
    if closed then .error (if node.isDirectory then .isADirectory else .notADirectory)
    else if !v.canChange directory then .error .permissionDenied
    else if node.isDirectory then .error .isADirectory
    else .ok (v.modify directory (Node.erase n))

/-- Moves an entry, in place of the one that is there. -/
def rename (v : Volume) (p q : Path) : Except IoKind Volume := do
  let old ← v.find .keep p
  let new ← v.find .keep q
  match old.name, new.name, old.node with
  | some n, some m, some node =>
    if !node.isDirectory ∧ (old.closed ∨ new.closed) then .error .notADirectory
    else if node.isDirectory ∧ old.place <+: new.directory then .error .invalidInput
    else if new.place <+: old.directory then .error .directoryNotEmpty
    else if old.place = new.place then .ok v
    else if !v.canChange old.directory ∨ !v.canChange new.directory then .error .permissionDenied
    else
      let moved := (v.modify old.directory (Node.erase n)).modify new.directory (Node.put m node)
      match new.node, node.isDirectory with
      | some (.directory _ entries), true =>
        if entries.isEmpty then .ok moved else .error .directoryNotEmpty
      | some (.directory ..), false => .error .isADirectory
      | some _, true => .error .notADirectory
      | _, _ => .ok moved
  | some _, some _, none => .error .notFound
  | _, _, _ => .error .resourceBusy

/-! ## Operations of several calls -/

/-- A path and the paths above it, up to the first that names nothing more. -/
def upwards : Nat → Path → List Path
  | 0, _ => []
  | fuel + 1, p =>
    if p.bytes = [] then []
    else
      match p.parent? with
      | some q => p :: upwards fuel q
      | none => [p]

/-- Makes the first directory of a list, if need be after those behind it. -/
def makeFirst (v : Volume) : List Path → Except IoKind Unit × Volume
  | [] => (.ok (), v)
  | p :: above =>
    match v.makeDirectory p with
    | .ok v => (.ok (), v)
    | .error .notFound =>
      match makeFirst v above with
      | (.error k, v) => (.error k, v)
      | (.ok (), v) =>
        match v.makeDirectory p with
        | .ok v => (.ok (), v)
        | .error k => (if v.isDirectory p then .ok () else .error k, v)
    | .error k => (if v.isDirectory p then .ok () else .error k, v)

/-- Makes a directory and those above it that are missing. -/
def makeDirectories (v : Volume) (p : Path) : Except IoKind Unit × Volume :=
  v.makeFirst (upwards (p.bytes.length + 1) p)

/-- Copies a file with its permissions. -/
def copyFile (v : Volume) (source dest : Path) : Except IoKind Unit × Volume :=
  match v.openFile source with
  | .error k => (.error k, v)
  | .ok opened =>
    let mode := v.modeAt opened
    match v.createWith mode dest with
    | .error k => (.error k, v)
    | .ok (copy, v) =>
      match v.setModeAt copy mode with
      | .error k => (.error k, v)
      | .ok v => v.copyAt opened copy

end Volume

end Depot
