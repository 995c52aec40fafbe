import Depot.Volume.Access

/-!
# Walking a directory

A walk finds the files below a directory, and the links below it that lead to a file. Each
directory is left in the order of the names of its entries, and a directory is entered where its
own name stands. Links are not walked through, but the walk may start at one.

A walk fails where a directory cannot be listed. What a link leads to is nobody's failure.

Out of scope: entries that come and go while a directory is walked; a walk is one step.
-/

namespace Depot

/-- A file that a walk found: the names that lead to it from where the walk started, and its
path. -/
structure Found where
  names : List Name
  path : Path
  deriving DecidableEq

namespace Volume

/-- Whether a path leads to a file. -/
def isFile (v : Volume) (p : Path) : Bool :=
  match v.stat p with
  | .ok .file => true
  | _ => false

/-- Why the directory at a path that was reached cannot be listed, if it cannot. -/
def listFailure? (p : Path) (reached : Bool) (mode : Mode) : Option IoKind :=
  if maxPath < p.bytes.length then some .invalidFilename
  else if reached ∧ mode.reads then none
  else some .permissionDenied

mutual

/-- Walks a node; `reached` says whether the directory it is in may be entered. -/
def walkNode (v : Volume) (names : List Name) (p : Path) (reached : Bool) :
    Node → Except IoKind (List Found)
  | .file .. | .faulty => .ok [⟨names, p⟩]
  | .link _ => .ok (if v.isFile p then [⟨names, p⟩] else [])
  | .socket => .ok []
  | .directory mode entries =>
    match listFailure? p reached mode with
    | some k => .error k
    | none => walkEntries v names p mode.enters entries

/-- Walks the entries of a directory in their order. -/
def walkEntries (v : Volume) (names : List Name) (p : Path) (reached : Bool) :
    List (Name × Node) → Except IoKind (List Found)
  | [] => .ok []
  | (n, node) :: rest => do
    let first ← walkNode v (names ++ [n]) (p.child n) reached node
    return first ++ (← walkEntries v names p reached rest)

end

/-- Walks what a path leads to. -/
def walk (v : Volume) (p : Path) : Except IoKind (List Found) := do
  match ← v.existing (if p.isClosed then .follow else .keep) p with
  | (_, .link _) => do
    let (_, node) ← v.existing .follow p
    if node.isDirectory then walkNode v [] p true node
    else return if node.isFile then [⟨[], p⟩] else []
  | (_, node) => walkNode v [] p true node

end Volume

end Depot
