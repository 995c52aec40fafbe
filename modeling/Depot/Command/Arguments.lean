import Depot.Config
import Depot.Path
import Depot.Resource

/-!
# Arguments of the command line

A command line holds the options `--storage` and `--link-ttl-minutes`, the name of an operation,
and then the options and words of that operation. An option is written `--name=value`, or as two
arguments, of which the second may not look like an option; it is given at most once. After the
argument `--` all others are words.

The result is `none` where an argument is missing, unknown, repeated or cannot be read.

Out of scope: the texts for help and usage.
-/

namespace Depot.Command

open Text

/-- What an argument looks like. -/
inductive Shape where
  | word
  | option (name : Bytes) (value : Option Bytes)
  | short
  | separator
  deriving DecidableEq

/-- The octet `-`. -/
def hyphen : UInt8 := 0x2D

/-- The octet `=`. -/
def equals : UInt8 := 0x3D

/-- What an argument looks like; a lone hyphen is a word. -/
def Shape.of : Bytes → Shape
  | [] => .word
  | first :: rest =>
    if first ≠ hyphen ∨ rest = [] then .word
    else
      match rest with
      | [] => .word
      | second :: name =>
        if second ≠ hyphen then .short
        else if name = [] then .separator
        else
          match name.dropWhile (· != equals) with
          | [] => .option name none
          | _ :: value => .option (name.takeWhile (· != equals)) (some value)

/-- What was given so far. -/
structure Given where
  options : List (String × Bytes)
  words : List Bytes

/-- Takes an option that is known and was not given yet. -/
def Given.take (g : Given) (known : List String) (name value : Bytes) : Option Given := do
  let name ← decode? name
  if known.contains name ∧ (g.options.lookup name).isNone then
    some { g with options := g.options ++ [(name, value)] }
  else none

/-- Reads options up to the first word. -/
def readOptions (known : List String) (g : Given) : List Bytes → Option (Given × List Bytes)
  | [] => some (g, [])
  | arg :: rest =>
    match Shape.of arg, rest with
    | .word, rest => some (g, arg :: rest)
    | .option name (some value), rest => do readOptions known (← g.take known name value) rest
    | .option name none, value :: rest =>
      if Shape.of value = .word then do readOptions known (← g.take known name value) rest else none
    | _, _ => none

/-- Reads options and words up to the end. -/
def readAll (known : List String) (g : Given) : List Bytes → Option Given
  | [] => some g
  | arg :: rest =>
    match Shape.of arg, rest with
    | .word, rest => readAll known { g with words := g.words ++ [arg] } rest
    | .separator, rest => some { g with words := g.words ++ rest }
    | .option name (some value), rest => do readAll known (← g.take known name value) rest
    | .option name none, value :: rest =>
      if Shape.of value = .word then do readAll known (← g.take known name value) rest else none
    | _, _ => none

/-! ## Values -/

/-- A natural number of at most 64 bits in decimal digits, which may follow a plus sign. -/
def number? (s : String) : Option UInt64 :=
  let digits : List Char :=
    match s.toList with
    | '+' :: cs => cs
    | cs => cs
  let n := digits.foldl (fun n c => n * 10 + (c.toNat - '0'.toNat)) 0
  if digits ≠ [] ∧ digits.all Char.isDigit ∧ n < UInt64.size then some (UInt64.ofNat n) else none

/-- A path has at least one octet. -/
def path? (b : Bytes) : Option Path :=
  if b = [] then none else some ⟨b⟩

/-- The text of an option. -/
def Given.text? (g : Given) (name : String) : Option String :=
  (g.options.lookup name).bind decode?

/-- The number of an option. -/
def Given.number? (g : Given) (name : String) : Option UInt64 :=
  (g.text? name).bind Command.number?

/-- An option that may be missing, but has to be right where it is given. -/
def Given.optional {α : Type} (g : Given) (name : String) (read : Bytes → Option α) :
    Option (Option α) :=
  match g.options.lookup name with
  | none => some none
  | some value => (read value).map some

/-! ## Commands -/

/-- The operation that is asked for. -/
inductive Operation where
  | uploadDir (dir : Path)
  | uploadZip (bundle : Path)
  | download
  | getFile (path : String) (out : Option Path)
  deriving DecidableEq

/-- What a command line asks for. -/
structure Arguments where
  config : Config
  resource : Resource
  operation : Operation
  deriving DecidableEq

/-- The resource that options name. -/
def Given.resource? (g : Given) : Option Resource := do
  return ⟨← g.text? "owner", ← g.text? "kind", ← g.text? "uuid", ← g.number? "version"⟩

/-- The options of an operation, if there is one of that name. -/
def optionsOf? (name : String) : Option (List String) :=
  let resource := ["owner", "kind", "uuid", "version"]
  match name with
  | "upload-dir" | "upload-zip" | "download" => some resource
  | "get-file" => some (resource ++ ["out"])
  | _ => none

/-- The operation of a name with its words and options. -/
def operation? (name : String) (g : Given) : Option Operation :=
  match name, g.words with
  | "upload-dir", [dir] => (path? dir).map .uploadDir
  | "upload-zip", [bundle] => (path? bundle).map .uploadZip
  | "download", [] => some .download
  | "get-file", [path] => do return .getFile (← decode? path) (← g.optional "out" path?)
  | _, _ => none

/-- The settings that options name. -/
def Given.config? (g : Given) : Option Config := do
  let minutes ← g.optional "link-ttl-minutes" fun b => (decode? b).bind Command.number?
  return ⟨← g.text? "storage", .ofMinutes (minutes.getD 60)⟩

/-- Reads a command line. -/
def Arguments.read? (args : List Bytes) : Option Arguments := do
  match ← readOptions ["storage", "link-ttl-minutes"] ⟨[], []⟩ args with
  | (_, []) => none
  | (outer, name :: rest) =>
    let name ← decode? name
    let inner ← readAll (← optionsOf? name) ⟨[], []⟩ rest
    return ⟨← outer.config?, ← inner.resource?, ← operation? name inner⟩

end Depot.Command
