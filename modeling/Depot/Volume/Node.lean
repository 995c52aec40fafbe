import Depot.Content
import Depot.Path

/-!
# What a volume holds

A volume is a tree of nodes. A directory names its entries, in the order of their names; a `Place`
is the list of names that leads from the root to a node.

Who uses a volume owns all of it, so of the permissions of a node only its owner's count: to read
it, to write to it, and to look names up in it.

Out of scope: hard links, times, and owners.
-/

namespace Depot

/-- The permissions of a node, with the three bits for set-user-id, set-group-id and sticky. -/
abbrev Mode := BitVec 12

namespace Mode

/-- Whether the owner may read. -/
def reads (m : Mode) : Bool := m.getLsbD 8

/-- Whether the owner may write. -/
def writes (m : Mode) : Bool := m.getLsbD 7

/-- Whether the owner may look names up. -/
def enters (m : Mode) : Bool := m.getLsbD 6

/-- The mode of a file that is written to: it loses set-user-id, and set-group-id if the group may
execute it. -/
def afterWrite (m : Mode) : Mode :=
  if m.getLsbD 3 then m &&& 0o1777 else m &&& 0o3777

/-- The mode of a new node that is asked for with mode `m`: group and others may not write. -/
def masked (m : Mode) : Mode :=
  m &&& 0o7755

/-- The permissions alone. -/
def permissions (m : Mode) : BitVec 9 :=
  m.setWidth 9

end Mode

/-- A node of a volume. -/
inductive Node where
  | file (mode : Mode) (content : Content)
  | directory (mode : Mode) (entries : List (Name × Node))
  | link (target : Path)
  | socket
  /-- Looks like a file that its owner may read and write. Reading fails after the octets that it
  gives, and writing fails at once. -/
  | faulty {given : Bytes}

/-- The names that lead from the root to a node. -/
abbrev Place := List Name

/-- Names are in the order of their octets. -/
def Name.before (a b : Name) : Bool :=
  decide (a.bytes < b.bytes)

namespace Node

/-- Whether the node is a directory. -/
def isDirectory : Node → Bool
  | .directory .. => true
  | _ => false

/-- Whether the node is a file. -/
def isFile : Node → Bool
  | .file .. | .faulty => true
  | _ => false

/-- Entries with `n` put in its order, in place of an entry of that name. -/
def insertEntry (n : Name) (x : Node) : List (Name × Node) → List (Name × Node)
  | [] => [(n, x)]
  | (m, y) :: rest =>
    if n = m then (n, x) :: rest
    else if n.before m then (n, x) :: (m, y) :: rest
    else (m, y) :: insertEntry n x rest

/-- A directory with the entry `n`. -/
def put (n : Name) (x : Node) : Node → Node
  | .directory mode entries => .directory mode (insertEntry n x entries)
  | node => node

/-- A directory without the entry `n`. -/
def erase (n : Name) : Node → Node
  | .directory mode entries => .directory mode (entries.filter fun e => e.1 ≠ n)
  | node => node

/-- The node at a place below. -/
def get? : Node → Place → Option Node
  | node, [] => some node
  | .directory _ entries, n :: rest => (entries.lookup n).bind fun child => child.get? rest
  | _, _ :: _ => none

/-- The tree with the node at a place below changed. -/
def modify (f : Node → Node) : Place → Node → Node
  | [], node => f node
  | n :: rest, .directory mode entries =>
    .directory mode (entries.map fun e => if e.1 = n then (e.1, modify f rest e.2) else e)
  | _ :: _, node => node

end Node

/-- A tree of nodes, and the directory in which relative paths start. -/
structure Volume where
  root : Node
  here : Place
  /-- The most octets that a file can hold, if there is a bound. -/
  largest : Option Nat

namespace Volume

/-- The node at a place. -/
def node? (v : Volume) (p : Place) : Option Node :=
  v.root.get? p

/-- The volume with the node at a place changed. -/
def modify (v : Volume) (p : Place) (f : Node → Node) : Volume :=
  { v with root := v.root.modify f p }

end Volume

end Depot
