import Depot.Error
import Depot.Volume.Node

/-!
# Looking paths up

A path is looked up component by component from the root or from the current directory. Every
component is looked up in a directory that may be entered; links on the way are followed, at most
forty of them. What is done with the last component depends on what it is looked up for:

* `keep` takes the entry as it is, be it a link,
* `follow` follows it,
* `create` follows it too, but a slash after it asks for a directory, which is refused.

The result is a `Spot`: an entry of a directory, which may be missing, or the directory itself
where the path ends with a component that is no name.

Out of scope: mounts, and file systems that fold letters.
-/

namespace Depot.Volume

/-- The longest path that a system call takes. -/
def maxPath : Nat := 4095

/-- The longest name of an entry. -/
def maxName : Nat := 255

/-- The number of links that are followed in one path. -/
def maxLinks : Nat := 40

/-- What the last component is looked up for. -/
inductive Last where
  | keep
  | follow
  | create
  deriving DecidableEq, Repr

/-- Where a path leads. -/
structure Spot where
  directory : Place
  /-- The entry of the directory that is meant, if it is not the directory itself. -/
  name : Option Name
  node : Option Node
  /-- Whether the path has a slash at its end. -/
  closed : Bool

/-- The place of a spot. -/
def Spot.place (s : Spot) : Place :=
  s.directory ++ s.name.toList

end Depot.Volume

namespace Depot

/-- What the pieces of a path ask for; empty pieces ask for nothing. -/
def Path.route (p : Path) : List Segment :=
  (p.pieces.filter (· ≠ [])).map Segment.ofBytes

/-- Whether a path ends with a slash. -/
def Path.isClosed (p : Path) : Bool :=
  p.bytes.getLast? == some slash

end Depot

namespace Depot.Volume

/-- The entries of a directory that may be entered. -/
def enter (root : Node) (p : Place) : Except IoKind (List (Name × Node)) :=
  match root.get? p with
  | none => .error .notFound
  | some (.directory mode entries) => if mode.enters then .ok entries else .error .permissionDenied
  | some _ => .error .notADirectory

/-- Where components lead: to a spot, or to a link that has to be followed, from where other
components lead on. -/
inductive Hop where
  | spot (s : Spot)
  | onward (p : Place) (segments : List Segment) (closed : Bool)

/-- Goes on at the target of a link that stands in the directory `p`. -/
def Hop.through (p : Place) (target : Path) (rest : List Segment) (closed : Bool) : Hop :=
  .onward (if target.isAbsolute then [] else p) (target.route ++ rest) closed

/-- The entry that the last component names. -/
def lastEntry (root : Node) (last : Last) (closed : Bool) (p : Place) (n : Name) :
    Except IoKind Hop := do
  let entries ← enter root p
  if last = .create ∧ closed then .error .isADirectory
  else if maxName < n.bytes.length then .error .invalidFilename
  else
    match entries.lookup n with
    | some (.link target) =>
      if last = .keep then return .spot ⟨p, some n, some (.link target), closed⟩
      else return .through p target [] (closed || target.isClosed)
    | node => return .spot ⟨p, some n, node, closed⟩

/-- Follows components from a place, up to the first link. -/
def hop (root : Node) (last : Last) (closed : Bool) : Place → List Segment → Except IoKind Hop
  | p, [] => .ok (.spot ⟨p, none, root.get? p, closed⟩)
  | p, [.name n] => lastEntry root last closed p n
  | p, s :: rest => do
    let entries ← enter root p
    match s with
    | .stay => hop root last closed p rest
    | .up => hop root last closed p.dropLast rest
    | .name n =>
      if maxName < n.bytes.length then .error .invalidFilename
      else
        match entries.lookup n with
        | none => .error .notFound
        | some (.link target) => return .through p target rest closed
        | some _ => hop root last closed (p ++ [n]) rest

/-- Follows links until a spot is reached; `hops` is one more than the number of links that may be
followed. -/
def locate (root : Node) (last : Last) : Nat → Hop → Except IoKind Spot
  | _, .spot s => .ok s
  | 0, .onward .. => .error .filesystemLoop
  | hops + 1, .onward p segments closed => do
    let next ← hop root last closed p segments
    locate root last hops next

/-- Looks a path up. A path with a zero octet is refused before the system sees it. -/
def find (v : Volume) (last : Last) (p : Path) : Except IoKind Spot :=
  if 0 ∈ p.bytes then .error .invalidInput
  else if maxPath < p.bytes.length then .error .invalidFilename
  else if p.bytes = [] then .error .notFound
  else
    locate v.root last (maxLinks + 1)
      (.onward (if p.isAbsolute then [] else v.here) p.route p.isClosed)

/-- Looks up what a path leads to; a slash at the end asks for a directory. -/
def existing (v : Volume) (last : Last) (p : Path) : Except IoKind (Place × Node) := do
  let spot ← v.find last p
  match spot.node with
  | none => .error .notFound
  | some node =>
    if spot.closed ∧ !node.isDirectory then .error .notADirectory else .ok (spot.place, node)

end Depot.Volume
