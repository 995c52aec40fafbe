/-!
# UTF-8

* `encode s` is the UTF-8 form of a text, `Bytes` an arbitrary string of octets.
* `lossy bs` reads octets as text; each maximal start of a well-formed sequence that is not
  continued, and each octet that can start none, is read as one replacement character U+FFFD.
* `decode? bs` reads well-formed octets only: those that `encode` gives.

Reading goes octet by octet. `Pending` is what is known of the sequence under way: how many octets
are missing, the range of the next one, and the code point so far. The range of the second octet
is what excludes overlong forms, surrogates and values above U+10FFFF.

`lossy` is how `collect_files` and `file_key` read names.
-/

namespace Depot

/-- A string of octets. -/
abbrev Bytes := List UInt8

namespace Text

/-- The UTF-8 form of a text. -/
def encode (s : String) : Bytes :=
  s.toList.flatMap String.utf8EncodeChar

/-- What is known of the sequence under way. -/
inductive Pending where
  /-- No sequence is under way. -/
  | idle
  /-- `missing + 1` octets are missing, the next one between `lo` and `hi`. -/
  | within (missing : Nat) (lo hi : UInt8) (code : Nat)
  deriving DecidableEq, Repr

/-- Stands for octets that are no UTF-8. -/
def replacement : Char := '\uFFFD'

/-- Reads an octet where no sequence is under way. -/
def start (b : UInt8) : List Char × Pending :=
  if b < 0x80 then ([Char.ofNat b.toNat], .idle)
  else if b < 0xC2 then ([replacement], .idle)
  else if b < 0xE0 then ([], .within 0 0x80 0xBF (b.toNat - 0xC0))
  else if b = 0xE0 then ([], .within 1 0xA0 0xBF 0)
  else if b = 0xED then ([], .within 1 0x80 0x9F 0xD)
  else if b < 0xF0 then ([], .within 1 0x80 0xBF (b.toNat - 0xE0))
  else if b = 0xF0 then ([], .within 2 0x90 0xBF 0)
  else if b < 0xF4 then ([], .within 2 0x80 0xBF (b.toNat - 0xF0))
  else if b = 0xF4 then ([], .within 2 0x80 0x8F 4)
  else ([replacement], .idle)

/-- Reads one octet: the characters that are complete with it, and what is under way then. -/
def advance : Pending → UInt8 → List Char × Pending
  | .idle, b => start b
  | .within missing lo hi code, b =>
    if lo ≤ b ∧ b ≤ hi then
      let code := code * 64 + (b.toNat - 0x80)
      match missing with
      | 0 => ([Char.ofNat code], .idle)
      | missing + 1 => ([], .within missing 0x80 0xBF code)
    else
      let (cs, next) := start b
      (replacement :: cs, next)

/-- Reads octets up to their end, where a sequence under way is cut short. -/
def lossyChars : Pending → Bytes → List Char
  | .idle, [] => []
  | .within .., [] => [replacement]
  | state, b :: bs =>
    let (cs, next) := advance state b
    cs ++ lossyChars next bs

/-- Octets read as text, with U+FFFD for what is no UTF-8. -/
def lossy (bs : Bytes) : String :=
  String.ofList (lossyChars .idle bs)

/-- The text that the octets are the UTF-8 form of, if there is one. -/
def decode? (bs : Bytes) : Option String :=
  if encode (lossy bs) = bs then some (lossy bs) else none

end Text

end Depot
