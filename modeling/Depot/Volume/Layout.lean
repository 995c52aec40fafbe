import Depot.Volume.Walk

/-!
# Laying out a volume

Operations that prepare a volume and look at it: files and directories are made together with the
directories above them, trees are removed and listed.
-/

namespace Depot.Volume

/-- A volume whose current directory is empty; its root may not be changed, and it holds a device
that looks like a file and fails whoever tries. -/
def blank : Volume :=
  let name (s : String) : Name := (Name.ofBytes? (Text.encode s)).getD ⟨[dot, dot, dot], by decide⟩
  let device :=
    Node.directory 0o555 [(name "self", .directory 0o555 [(name "mem", @Node.faulty [])])]
  let work := Node.directory directoryMode [(name "work", .directory directoryMode [])]
  ⟨.directory 0o555 [(name "proc", device), (name "tmp", work)], [name "tmp", name "work"], none⟩

/-- The path of the device that fails. -/
def device : Path :=
  .ofString "/proc/self/mem"

/-- Makes a directory and those above it. -/
def layDirectory (v : Volume) (p : Path) : Except IoKind Volume :=
  match v.makeDirectories p with
  | (.ok (), v) => .ok v
  | (.error k, _) => .error k

/-- Makes the directory that a path is in. -/
def layParent (v : Volume) (p : Path) : Except IoKind Volume :=
  match p.parent? with
  | some parent => v.layDirectory parent
  | none => .ok v

/-- Sets the permissions of what a path leads to. -/
def setMode (v : Volume) (p : Path) (mode : Mode) : Except IoKind Volume := do
  let (place, _) ← v.existing .follow p
  v.setModeAt place mode

/-- Writes a file, with the given permissions if there are any. -/
def layFile (v : Volume) (p : Path) (content : Content) (mode : Option Mode) :
    Except IoKind Volume := do
  let v ← v.layParent p
  let (place, v) ← v.create p
  match v.writeAt place content, mode with
  | (.error k, _), _ => .error k
  | (.ok (), v), some mode => v.setMode p mode
  | (.ok (), v), none => .ok v

mutual

/-- Whether a node with all below it may be removed from its directory. -/
def removable : Node → Bool
  | .directory mode entries =>
    mode.reads && (entries.isEmpty || mode.writes && mode.enters) && removableEntries entries
  | _ => true

/-- Whether entries with all below them may be removed. -/
def removableEntries : List (Name × Node) → Bool
  | [] => true
  | (_, node) :: rest => removable node && removableEntries rest

end

/-- Removes an entry, with all below it if it is a directory. -/
def removeTree (v : Volume) (p : Path) : Except IoKind Volume := do
  match ← v.find .keep p with
  | ⟨directory, some n, some (.directory mode entries), _⟩ =>
    if removable (.directory mode entries) ∧ v.canChange directory then
      .ok (v.modify directory (Node.erase n))
    else .error .permissionDenied
  | _ => v.remove p

mutual

/-- A node with all below it, each with the names that lead to it; `none` where a file or a
directory may not be read. -/
def listNode (names : List Name) : Node → Option (List (List Name × Node))
  | .directory mode entries =>
    if mode.reads ∧ (mode.enters ∨ entries = []) then
      (listEntries names entries).map ((names, .directory mode entries) :: ·)
    else none
  | .file mode content => if mode.reads then some [(names, .file mode content)] else none
  | node => some [(names, node)]

/-- The entries of a directory with all below them. -/
def listEntries (names : List Name) : List (Name × Node) → Option (List (List Name × Node))
  | [] => some []
  | (n, node) :: rest => do return (← listNode (names ++ [n]) node) ++ (← listEntries names rest)

end

/-- All that is below a directory. -/
def listing (names : List Name) (entries : List (Name × Node)) : Option (List (List Name × Node)) :=
  listEntries names entries

end Depot.Volume
