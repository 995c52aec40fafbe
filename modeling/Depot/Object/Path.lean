import Depot.Text.Split
import Depot.Text.Utf8

/-!
# Paths of objects

An object store names its objects by paths of its own: the parts of a key between slashes, without
the empty ones, each with the octets escaped that a part may not hold. The parts `.` and `..` are
escaped as a whole.

Keys become such paths in `put_file`, `get_file` and the other operations of `CloudStorage`.
-/

namespace Depot

open Text

/-- The path of an object, part by part. -/
structure ObjectPath where
  parts : List String
  deriving DecidableEq, Repr

/-- An octet as a percent sign and two upper-case hexadecimal digits. -/
def percent (b : UInt8) : List Char :=
  ['%', (Nat.digitChar (b.toNat / 16)).toUpper, (Nat.digitChar (b.toNat % 16)).toUpper]

/-- Octets with those that are not kept as they are written with a percent sign. -/
def percentEncode (keeps : UInt8 → Bool) (bs : Bytes) : List Char :=
  bs.flatMap fun b => if keeps b then [Char.ofNat b.toNat] else percent b

namespace ObjectPath

/-- The printable characters that a part may not hold. -/
def forbidden : List Char :=
  ['\\', '\x7b', '^', '\x7d', '%', '`', ']', '"', '>', '[', '~', '<', '#', '|', '*', '?']

/-- Whether an octet stands for itself in a part. -/
def keeps (b : UInt8) : Bool :=
  decide (0x20 ≤ b) && decide (b < 0x7F) && !forbidden.contains (Char.ofNat b.toNat)

/-- A part as it stands in a path. -/
def encodePart (part : List Char) : String :=
  if part = ['.'] then "%2E"
  else if part = ['.', '.'] then "%2E%2E"
  else String.ofList (percentEncode keeps (encode (String.ofList part)))

/-- The path of the object for a key. -/
def ofKey (key : String) : ObjectPath :=
  ⟨((splitOn '/' key.toList).filter (· ≠ [])).map encodePart⟩

/-- The path as text. -/
def text (p : ObjectPath) : String :=
  "/".intercalate p.parts

end ObjectPath

end Depot
