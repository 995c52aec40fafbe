import Depot.Config
import Depot.Resource

/-!
# Compact JSON text

Strings are quoted with the short escapes for the quote, the backslash and five controls; any other
control is written with four lower-case hexadecimal digits, and all else as it is. Objects are
written without blanks and with their fields in the order of the type.
-/

namespace Depot.Json

/-- A hexadecimal digit in lower case. -/
def hexDigit (n : Nat) : Char :=
  Nat.digitChar (n % 16)

/-- A character as it stands between quotes. -/
def escape (c : Char) : List Char :=
  if c = '"' then ['\\', '"']
  else if c = '\\' then ['\\', '\\']
  else if c = '\x08' then ['\\', 'b']
  else if c = '\x0c' then ['\\', 'f']
  else if c = '\n' then ['\\', 'n']
  else if c = '\r' then ['\\', 'r']
  else if c = '\t' then ['\\', 't']
  else if c.toNat < 0x20 then ['\\', 'u', '0', '0', hexDigit (c.toNat / 16), hexDigit c.toNat]
  else [c]

/-- A text between quotes. -/
def quote (s : String) : List Char :=
  '"' :: s.toList.flatMap escape ++ ['"']

/-- A natural number in decimal digits. -/
def digits (n : Nat) : List Char :=
  n.repr.toList

/-- The fields of an object after its opening brace. -/
def fields : List (String × List Char) → List Char
  | [] => ['\x7d']
  | [(name, value)] => quote name ++ ':' :: value ++ ['\x7d']
  | (name, value) :: rest => quote name ++ ':' :: value ++ ',' :: fields rest

/-- An object with the given fields. -/
def object (fs : List (String × List Char)) : List Char :=
  '\x7b' :: fields fs

end Depot.Json

namespace Depot

/-- The compact JSON text of a resource. -/
def Resource.toJson (r : Resource) : String :=
  String.ofList <| Json.object [("owner", Json.quote r.owner), ("kind", Json.quote r.kind),
    ("uuid", Json.quote r.uuid), ("version", Json.digits r.version.toNat)]

/-- The compact JSON text of a lifetime. -/
def Lifetime.json (t : Lifetime) : List Char :=
  Json.object [("secs", Json.digits t.seconds.toNat), ("nanos", Json.digits t.nanos)]

/-- The compact JSON text of the settings. -/
def Config.toJson (c : Config) : String :=
  String.ofList <| Json.object [("uri", Json.quote c.uri), ("link_ttl", c.linkLifetime.json)]

end Depot
