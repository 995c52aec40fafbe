import Depot.Content

/-!
# Archives in octets

An archive in the ZIP format is a record for each member, in their order, with its content, then a
directory with a record for each member that says where the first one starts, then an end record.
All numbers are little-endian. `Archive.octets` writes the archive of members whose contents are
octets, and `Content.octets` the octets of any content.

A deflated content consists of stored blocks: it is exact, but no shorter.

This is what `write_archive` leaves on disk. Out of scope: how a content is compressed.
-/

namespace Depot

namespace Archive

/-- A number in `width` octets, the lowest first. -/
def littleEndian (width n : Nat) : Bytes :=
  (List.range width).map fun i => UInt8.ofNat (n >>> (8 * i))

/-- One step of the checksum: the remainder moves down by one bit. -/
def shift (c : UInt32) : UInt32 :=
  if c &&& 1 = 1 then (c >>> 1) ^^^ 0xEDB88320 else c >>> 1

/-- One octet of the checksum. -/
def checkOctet (c : UInt32) (b : UInt8) : UInt32 :=
  (List.range 8).foldl (fun c _ => shift c) (c ^^^ b.toUInt32)

/-- The cyclic redundancy check of octets with the reflected polynomial `EDB88320`. -/
def checksum (bs : Bytes) : UInt32 :=
  bs.foldl checkOctet 0xFFFFFFFF ^^^ 0xFFFFFFFF

/-- The largest number of octets in a stored block. -/
def maxBlock : Nat := 65535

/-- A stored block: whether it is the last one, its length, the complement of that, its octets. -/
def block (last : Bool) (bs : Bytes) : Bytes :=
  (if last then 1 else 0) :: littleEndian 2 bs.length ++ littleEndian 2 (maxBlock - bs.length) ++ bs

/-- Octets in stored blocks, `n` full ones before the last. -/
def blocks : Nat → Bytes → Bytes
  | 0, bs => block true bs
  | n + 1, bs => block false (bs.take maxBlock) ++ blocks n (bs.drop maxBlock)

/-- Octets as a method keeps them. -/
def keep : Method → Bytes → Bytes
  | .stored, bs => bs
  | .deflated, bs => blocks ((bs.length - 1) / maxBlock) bs

/-- The number of a method. -/
def methodCode : Method → Nat
  | .stored => 0
  | .deflated => 8

/-- The version of the format that reading takes. -/
def version : Nat := 20

/-- The system whose permissions are recorded. -/
def system : Nat := 3

/-- The bit that says that a name is in UTF-8, where it makes a difference. -/
def nameFlag (name : Bytes) : Nat :=
  if name.all (· < 0x80) then 0 else 0x800

/-- What both records of a member say: the flags, the method, the first moment of 1980, the
checksum, the lengths of the content as it is kept and as it is, and the length of the name. -/
def description (m : Member Bytes) : Bytes :=
  let name := Text.encode m.name
  [(2, nameFlag name), (2, methodCode m.method), (2, 0), (2, 0x21),
    (4, (checksum m.content).toNat), (4, (keep m.method m.content).length),
    (4, m.content.length), (2, name.length)].flatMap fun field => littleEndian field.1 field.2

/-- The record of a member with its content. -/
def record (m : Member Bytes) : Bytes :=
  littleEndian 4 0x04034B50 ++ littleEndian 2 version ++ description m ++ littleEndian 2 0
    ++ Text.encode m.name ++ keep m.method m.content

/-- The record in the directory of a member whose own record starts at `offset`. -/
def directoryRecord (offset : Nat) (m : Member Bytes) : Bytes :=
  littleEndian 4 0x02014B50 ++ littleEndian 2 (system * 256 + version) ++ littleEndian 2 version
    ++ description m ++ littleEndian 8 0
    ++ littleEndian 4 ((0o100000 + m.permissions.toNat) * 65536)
    ++ littleEndian 4 offset ++ Text.encode m.name

/-- The records in the directory of members, the first of which starts at `offset`. -/
def directory (offset : Nat) : List (Member Bytes) → Bytes
  | [] => []
  | m :: ms => directoryRecord offset m ++ directory (offset + (record m).length) ms

/-- The end record of `count` members whose directory has `size` octets and starts at `offset`. -/
def endRecord (count size offset : Nat) : Bytes :=
  littleEndian 4 0x06054B50 ++ littleEndian 4 0 ++ littleEndian 2 count ++ littleEndian 2 count
    ++ littleEndian 4 size ++ littleEndian 4 offset ++ littleEndian 2 0

/-- The archive of members. -/
def octets (ms : List (Member Bytes)) : Bytes :=
  let records := ms.flatMap record
  let entries := directory 0 ms
  records ++ entries ++ endRecord ms.length entries.length records.length

end Archive

namespace Content

mutual

/-- The octets of a content. -/
def octets : Content → Bytes
  | .plain bytes => bytes
  | .archive ms => Archive.octets (memberOctets ms)

/-- Members with the octets of their contents. -/
def memberOctets : List (Member Content) → List (Member Bytes)
  | [] => []
  | ⟨name, method, permissions, content⟩ :: ms =>
    ⟨name, method, permissions, content.octets⟩ :: memberOctets ms

end

end Content

end Depot
