import Depot.Text.Split
import Depot.Text.Utf8

/-!
# Paths

A path is a string of octets cut into pieces by `/`. A piece that is empty or `.` stays where it
is, `..` goes up, and every other piece is a `Name`.

* `components` lists what a path says: an absolute path begins with `root`, a relative one that
  begins with the piece `.` begins with `current`; apart from these two, pieces that stay are left
  out.
* `join` puts a path behind another one, `parent?` takes the last component away, `fileName?` is
  the last component if it is a name, `withExtension` replaces what follows its last dot.

`join` is how `LocalStorage` finds its files, `withExtension` how `zip_dir` names the file beside a
bundle. Out of scope: prefixes of paths on other systems.
-/

namespace Depot

open Text

/-- The octet `/`. -/
def slash : UInt8 := 0x2F

/-- The octet `.`. -/
def dot : UInt8 := 0x2E

/-- A name that a directory can give to an entry. -/
structure Name where
  bytes : Bytes
  ordinary : bytes ≠ [] ∧ bytes ≠ [dot] ∧ bytes ≠ [dot, dot] ∧ slash ∉ bytes
  deriving DecidableEq

namespace Name

/-- The octets as a name, if they are one. -/
def ofBytes? (b : Bytes) : Option Name :=
  if h : b ≠ [] ∧ b ≠ [dot] ∧ b ≠ [dot, dot] ∧ slash ∉ b then some ⟨b, h⟩ else none

/-- The name as text. -/
def display (n : Name) : String :=
  lossy n.bytes

/-- What stands before and behind the last dot; a dot in front of the whole name is no such dot. -/
def stemAndExtension (b : Bytes) : Bytes × Option Bytes :=
  let behind := (b.reverse.takeWhile (· != dot)).reverse
  let before := b.take (b.length - behind.length - 1)
  if behind.length = b.length ∨ before = [] then (b, none) else (before, some behind)

end Name

/-- What one piece of a path asks for. -/
inductive Segment where
  | stay
  | up
  | name (n : Name)
  deriving DecidableEq

/-- Two dots go up, and what is no name stays. -/
def Segment.ofBytes (b : Bytes) : Segment :=
  if b = [dot, dot] then .up
  else
    match Name.ofBytes? b with
    | some n => .name n
    | none => .stay

/-- What a path says. -/
inductive Component where
  | root
  | current
  | up
  | name (n : Name)
  deriving DecidableEq

/-- A path, absolute or relative. -/
structure Path where
  bytes : Bytes
  deriving DecidableEq

namespace Path

/-- The path that a text spells. -/
def ofString (s : String) : Path :=
  ⟨encode s⟩

/-- The path as text. -/
def display (p : Path) : String :=
  lossy p.bytes

/-- A path is absolute if it begins with `/`. -/
def isAbsolute (p : Path) : Bool :=
  p.bytes.head? == some slash

/-- The pieces between the separators. -/
def pieces (p : Path) : List Bytes :=
  splitOn slash p.bytes

/-- What each piece asks for. -/
def segments (p : Path) : List Segment :=
  p.pieces.map Segment.ofBytes

/-- What the first piece says; it is empty in an absolute path. -/
def leading (p : Path) (piece : Bytes) : List Component :=
  if p.isAbsolute then [.root]
  else if piece = [dot] then [.current]
  else
    match Segment.ofBytes piece with
    | .stay => []
    | .up => [.up]
    | .name n => [.name n]

/-- What a path says, in order. -/
def components (p : Path) : List Component :=
  match p.pieces with
  | [] => []
  | first :: rest =>
    p.leading first ++ (rest.map Segment.ofBytes).filterMap fun
      | .stay => none
      | .up => some .up
      | .name n => some (.name n)

/-- `q` seen from `p`: an absolute `q` stands alone, any other follows `p` and one separator. -/
def join (p q : Path) : Path :=
  if q.isAbsolute then q
  else if p.bytes = [] ∨ p.bytes.getLast? = some slash then ⟨p.bytes ++ q.bytes⟩
  else ⟨p.bytes ++ slash :: q.bytes⟩

/-- The entry `n` of the directory `p`. -/
def child (p : Path) (n : Name) : Path :=
  p.join ⟨n.bytes⟩

/-- Pieces without those at the end that stay. -/
def trimEnd (ps : List Bytes) : List Bytes :=
  (ps.reverse.dropWhile fun b => b == [] || b == [dot]).reverse

/-- The path of a first piece and the others; nothing behind an absolute first piece is `/`. -/
def ofPieces (absolute : Bool) (first : Bytes) (rest : List Bytes) : Path :=
  if absolute ∧ rest = [] then ⟨[slash]⟩ else ⟨joinWith slash (first :: rest)⟩

/-- The path without its last component, if it has one that is not the root. -/
def parent? (p : Path) : Option Path :=
  match p.pieces with
  | [] => none
  | first :: rest =>
    match trimEnd rest with
    | [] => if p.isAbsolute ∨ first = [] then none else some ⟨[]⟩
    | kept => some (ofPieces p.isAbsolute first (trimEnd kept.dropLast))

/-- The path that ends with its last component, split into what stands before it and its octets. -/
def lastPiece? (p : Path) : Option (List Bytes × Bytes) :=
  match p.pieces with
  | [] => none
  | first :: rest =>
    match (trimEnd rest).getLast? with
    | some last => some (first :: (trimEnd rest).dropLast, last)
    | none => if p.isAbsolute then none else some ([], first)

/-- The last component, if it is a name. -/
def fileName? (p : Path) : Option Name := do
  let (_, last) ← p.lastPiece?
  Name.ofBytes? last

/-- The path with `ext` behind the stem of its file name; without a file name it is unchanged. -/
def withExtension (p : Path) (ext : Bytes) : Path :=
  match p.lastPiece? with
  | none => p
  | some (before, last) =>
    if (Name.ofBytes? last).isSome then
      ⟨joinWith slash (before ++ [(Name.stemAndExtension last).1 ++ dot :: ext])⟩
    else p

end Path

end Depot
