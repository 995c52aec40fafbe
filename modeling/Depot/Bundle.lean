import Depot.Source

/-!
# Bundles

The bundle of a folder is an archive with a deflated member for each of its files, under its
relative key and with its permissions. It is written to a file of a fresh name beside the
destination and then moved there, so that the destination is missing or complete at any time.

`make` is `zip_dir`, `writeArchive` is `write_archive`; the fresh name takes its digits from
`Call.nonce`, as a new UUID. The archive is written at once when its members are read, so it is at
the finish that it may turn out not to fit.

Out of scope: the compression itself, and the times of members.
-/

namespace Depot

/-- The path beside a destination to which its bundle is written. -/
def Path.beside (dest : Path) (nonce : Bytes) : Path :=
  dest.withExtension (Text.encode "zip." ++ nonce ++ Text.encode ".tmp")

namespace Bundle

/-- Reads files into members; a second member of one name is refused. -/
def members (taken : List (Member Content)) : List SourceFile → Action (List (Member Content))
  | [] => return taken
  | f :: rest => do
    let file ← Action.trying (.openFile f.path) (.ofCall (.openFile f.path))
    let mode ← Action.ofProcedure (.ofCall (.mode file))
    if taken.any fun m => m.name == f.key then throw (.backend (.addEntry f.key) (some .other))
    let content ← Action.trying (.compress f.key) (.ofCall (.read file))
    members (taken ++ [⟨f.key, .deflated, Mode.permissions mode, content⟩]) rest

/-- `write_archive`: writes the archive of files to a new file. -/
def writeArchive (files : List SourceFile) (path : Path) : Action Unit := do
  let out ← Action.trying (.create path) (.ofCall (.create path))
  let ms ← members [] files
  Action.trying (.finish path) (.ofCall (.write out (.ofMembers ms)))

/-- Removes a file if an action fails. -/
def removing {α : Type} (path : Path) (action : Action α) : Action α :=
  tryCatch action fun e => do
    let _ ← Action.ofProcedure (.ofCall (.remove path))
    throw e

/-- `zip_dir`: makes the bundle of a folder and gives the number of its members. -/
def make (source dest : Path) : Action Nat := do
  let files ← collect source
  let nonce ← Action.ofProcedure (.ofCall .nonce)
  let temporary := dest.beside nonce
  removing temporary (writeArchive files temporary)
  removing temporary (Action.trying (.moveBundle dest) (.ofCall (.rename temporary dest)))
  return files.length

end Bundle

end Depot
