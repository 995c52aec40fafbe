import Depot.Text.Utf8

/-!
# Contents of files

A file holds octets, or an archive, which is known by its members; `Depot.Archive` says how members
are put into octets. Only an archive without members is given by its octets here.
-/

namespace Depot

/-- How the content of a member is kept in the octets of an archive. -/
inductive Method where
  | stored
  | deflated
  deriving DecidableEq, Repr

/-- A member of an archive: a name, the method by which its content is kept, the permissions of a
file and its content. -/
structure Member (γ : Type) where
  name : String
  method : Method
  permissions : BitVec 9
  content : γ
  deriving DecidableEq

/-- What a file holds. -/
inductive Content where
  | plain (bytes : Bytes)
  | archive (members : List (Member Content))

namespace Content

/-- The content of an empty file. -/
def empty : Content :=
  .plain []

/-- Whether there is nothing in the file. -/
def isEmpty : Content → Bool
  | .plain [] => true
  | _ => false

/-- The octets of an archive without members. -/
def emptyArchive : Bytes :=
  [0x50, 0x4B, 0x05, 0x06] ++ List.replicate 18 0

/-- The archive of the given members. -/
def ofMembers : List (Member Content) → Content
  | [] => .plain emptyArchive
  | m :: ms => .archive (m :: ms)

/-- The members of an archive. -/
def members? : Content → Option (List (Member Content))
  | .archive ms => some ms
  | .plain bytes => if bytes = emptyArchive then some [] else none

theorem members?_ofMembers (ms : List (Member Content)) : (ofMembers ms).members? = some ms := by
  cases ms <;> simp [ofMembers, members?]

end Content

end Depot
