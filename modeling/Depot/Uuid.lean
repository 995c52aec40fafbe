import Depot.Text.Split

/-!
# UUIDs

A UUID is thirty-two hexadecimal digits, in either case. It is written without hyphens, in five
hyphenated groups, in such groups between braces, or in such groups behind `urn:uuid:`. Its
version is the thirteenth digit.

This is the text that `validate` asks for. Out of scope: the variant of a UUID, which nothing looks
at.
-/

namespace Depot

open Text

/-- The digits of a UUID, most significant first. -/
structure Uuid where
  digits : List (Fin 16)
  deriving DecidableEq, Repr

namespace Uuid

/-- The value of a hexadecimal digit of either case. -/
def digit? (c : Char) : Option (Fin 16) :=
  if '0' ≤ c ∧ c ≤ '9' then some (Fin.ofNat 16 (c.toNat - '0'.toNat))
  else if 'a' ≤ c ∧ c ≤ 'f' then some (Fin.ofNat 16 (c.toNat - 'a'.toNat + 10))
  else if 'A' ≤ c ∧ c ≤ 'F' then some (Fin.ofNat 16 (c.toNat - 'A'.toNat + 10))
  else none

/-- Reads digits in groups of the given lengths. -/
def ofGroups? (lengths : List Nat) (groups : List (List Char)) : Option Uuid :=
  if groups.map List.length = lengths then (groups.flatten.mapM digit?).map Uuid.mk else none

/-- Reads digits without hyphens. -/
def ofSimple? (cs : List Char) : Option Uuid :=
  ofGroups? [32] [cs]

/-- Reads five hyphenated groups of digits. -/
def ofHyphenated? (cs : List Char) : Option Uuid :=
  ofGroups? [8, 4, 4, 4, 12] (splitOn '-' cs)

/-- Reads hyphenated groups between braces. -/
def ofBraced? : List Char → Option Uuid
  | '\x7b' :: cs => if cs.getLast? = some '\x7d' then ofHyphenated? cs.dropLast else none
  | _ => none

/-- Reads hyphenated groups behind `urn:uuid:`, whose letters may be of either case. -/
def ofUrn? (cs : List Char) : Option Uuid :=
  if (cs.take 9).map Char.toLower = "urn:uuid:".toList then ofHyphenated? (cs.drop 9) else none

/-- Reads a UUID; the length of the text says which form it has to have. -/
def parse? (s : String) : Option Uuid :=
  match s.length with
  | 32 => ofSimple? s.toList
  | 36 => ofHyphenated? s.toList
  | 38 => ofBraced? s.toList
  | 45 => ofUrn? s.toList
  | _ => none

/-- The version of UUIDs that are made at random. -/
def randomVersion : Fin 16 := 4

/-- The version of a UUID is its thirteenth digit. -/
def version (u : Uuid) : Option (Fin 16) :=
  u.digits[12]?

end Uuid

end Depot
