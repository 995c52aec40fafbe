import Depot.Json.Number
import Depot.Uuid

/-!
# Reading JSON text

Reading goes from left to right and the first problem met decides. A value of a wanted type is read
by `stringValue`, `naturalValue` or, for records, by `arrayStart` and `objectMembers`; a value that
nobody wants is skipped by `skipValue`, which checks less than reading does.

* A record is written as an object or as an array of its fields in order.
* `objectMembers step` folds `step name` over the members of an object. `step` may refuse a member
  before its value is looked at.
-/

namespace Depot.Json

/-- Whether a character may stand between two tokens. -/
def isBlank (c : Char) : Bool :=
  c == ' ' || c == '\n' || c == '\t' || c == '\r'

/-- The text from its first token on. -/
def skipBlank (cs : List Char) : List Char :=
  cs.dropWhile isBlank

/-! ## Strings -/

/-- The value of four hexadecimal digits. -/
def hexValue4? (a b c d : Char) : Option Nat :=
  ([a, b, c, d].mapM Uuid.digit?).map fun ds => ds.foldl (fun n x => 16 * n + x.val) 0

/-- Fewer than four octets behind `\u` are an end too early, any others are no digits. -/
def shortEscape (cs : List Char) : Problem :=
  if (String.ofList cs).utf8ByteSize < 4 then .truncated else .malformed

/-- The character of a short escape. -/
def shortEscape? : Char → Option Char
  | '"' => some '"'
  | '\\' => some '\\'
  | '/' => some '/'
  | 'b' => some '\x08'
  | 'f' => some '\x0c'
  | 'n' => some '\n'
  | 'r' => some '\r'
  | 't' => some '\t'
  | _ => none

/-- Puts a character in front of a string that is read. -/
def consChar (c : Char) (read : Except Problem (List Char × List Char)) :
    Except Problem (List Char × List Char) :=
  read.map fun (cs, rest) => (c :: cs, rest)

/-- Whether a code unit is the first of a pair. -/
def isHighSurrogate (n : Nat) : Bool :=
  decide (0xD800 ≤ n) && decide (n ≤ 0xDBFF)

/-- Whether a code unit is the second of a pair. -/
def isLowSurrogate (n : Nat) : Bool :=
  decide (0xDC00 ≤ n) && decide (n ≤ 0xDFFF)

/-- The code point of a pair of code units. -/
def pairValue (high low : Nat) : Nat :=
  (high - 0xD800) * 0x400 + (low - 0xDC00) + 0x10000

/-- Reads a string after its opening quote. A code unit that is half of a pair has to be followed
by the other half. -/
def stringBody : List Char → Except Problem (List Char × List Char)
  | [] => .error .truncated
  | '"' :: rest => .ok ([], rest)
  | ['\\'] => .error .truncated
  | '\\' :: 'u' :: a :: b :: c :: d :: rest =>
    match hexValue4? a b c d with
    | none => .error .malformed
    | some n =>
      if isLowSurrogate n then .error .malformed
      else if isHighSurrogate n then
        match rest with
        | [] | ['\\'] => .error .truncated
        | '\\' :: 'u' :: e :: f :: g :: h :: rest =>
          match hexValue4? e f g h with
          | none => .error .malformed
          | some m =>
            if isLowSurrogate m then consChar (Char.ofNat (pairValue n m)) (stringBody rest)
            else .error .malformed
        | '\\' :: 'u' :: cs => .error (shortEscape cs)
        | _ => .error .malformed
      else consChar (Char.ofNat n) (stringBody rest)
  | '\\' :: 'u' :: cs => .error (shortEscape cs)
  | '\\' :: c :: rest =>
    match shortEscape? c with
    | some e => consChar e (stringBody rest)
    | none => .error .malformed
  | c :: rest => if c.toNat < 0x20 then .error .malformed else consChar c (stringBody rest)

/-- Skips a string after its opening quote; halves of pairs are not looked at. -/
def skipString : List Char → Except Problem (List Char)
  | [] => .error .truncated
  | '"' :: rest => .ok rest
  | ['\\'] => .error .truncated
  | '\\' :: 'u' :: a :: b :: c :: d :: rest =>
    match hexValue4? a b c d with
    | none => .error .malformed
    | some _ => skipString rest
  | '\\' :: 'u' :: cs => .error (shortEscape cs)
  | '\\' :: c :: rest => if (shortEscape? c).isSome then skipString rest else .error .malformed
  | c :: rest => if c.toNat < 0x20 then .error .malformed else skipString rest

/-! ## Values of another type -/

/-- Skips the rest of a keyword. -/
def skipWord : List Char → List Char → Except Problem (List Char)
  | [], cs => .ok cs
  | _ :: _, [] => .error .truncated
  | w :: ws, c :: cs => if w = c then skipWord ws cs else .error .malformed

/-- The problem that a value poses where one of another type is wanted: keywords, numbers and
strings have to be complete, arrays and objects are not looked into. -/
def otherType : List Char → Problem
  | [] => .truncated
  | 'n' :: cs => problem (skipWord "ull".toList cs)
  | 't' :: cs => problem (skipWord "rue".toList cs)
  | 'f' :: cs => problem (skipWord "alse".toList cs)
  | '-' :: cs => problem (number true cs)
  | '"' :: cs => problem (stringBody cs)
  | '[' :: _ | '\x7b' :: _ => .mismatch
  | c :: cs => if c.isDigit then problem (number false (c :: cs)) else .malformed
where
  /-- The problem of a value that is read for nothing. -/
  problem {α : Type} : Except Problem α → Problem
    | .ok _ => .mismatch
    | .error p => p

/-- Reads a string. -/
def stringValue : Reader String := fun cs =>
  match skipBlank cs with
  | '"' :: cs => (stringBody cs).map fun (s, rest) => (String.ofList s, rest)
  | cs => .error (otherType cs)

/-- Reads a natural number of at most 64 bits. -/
def naturalValue : Reader UInt64 := fun cs =>
  match skipBlank cs with
  | '-' :: cs => natural (number true cs)
  | [] => .error .truncated
  | c :: cs => if c.isDigit then natural (number false (c :: cs)) else .error (otherType (c :: cs))
where
  /-- A number that has to be natural. -/
  natural : Except Problem (Number × List Char) → Except Problem (UInt64 × List Char)
    | .ok (.natural n, rest) => .ok (n, rest)
    | .ok (.other, _) => .error .mismatch
    | .error p => .error p

/-! ## Skipping -/

/-- What encloses a value that is skipped. -/
inductive Frame where
  | array
  | object
  deriving DecidableEq, Repr

/-- Where skipping stands. -/
inductive Skip where
  /-- A value begins. -/
  | value
  /-- An array or object was opened. -/
  | opened
  /-- A value ended. -/
  | closed
  /-- A name in an object begins. -/
  | name
  deriving DecidableEq, Repr

/-- Skips a keyword, number or string, if the text begins with one; else opens an array or an
object. -/
def skipScalar : List Char → Except Problem (Option Frame × List Char)
  | [] => .error .truncated
  | 'n' :: cs => (skipWord "ull".toList cs).map (none, ·)
  | 't' :: cs => (skipWord "rue".toList cs).map (none, ·)
  | 'f' :: cs => (skipWord "alse".toList cs).map (none, ·)
  | '-' :: cs => (skipNumber cs).map (none, ·)
  | '"' :: cs => (skipString cs).map (none, ·)
  | '[' :: cs => .ok (some .array, cs)
  | '\x7b' :: cs => .ok (some .object, cs)
  | c :: cs => if c.isDigit then (skipNumber (c :: cs)).map (none, ·) else .error .malformed

/-- Skips the name of a member and the colon after it. -/
def skipName (cs : List Char) : Except Problem (List Char) :=
  match skipBlank cs with
  | [] => .error .truncated
  | '"' :: cs => do
    match skipBlank (← skipString cs) with
    | [] => .error .truncated
    | ':' :: cs => .ok cs
    | _ => .error .malformed
  | _ => .error .malformed

/-- The bracket that ends an array or an object. -/
def Frame.close : Frame → Char
  | .array => ']'
  | .object => '\x7d'

/-- Skips what is left to skip inside the frames that are open, the innermost first. Every
second step takes a character, which bounds the number of steps. -/
def skipFrom : Nat → Skip → List Frame → List Char → Except Problem (List Char)
  | 0, _, _, _ => .error .truncated
  | fuel + 1, .value, frames, cs => do
    match ← skipScalar (skipBlank cs) with
    | (none, cs) => skipFrom fuel .closed frames cs
    | (some frame, cs) => skipFrom fuel .opened (frame :: frames) cs
  | _ + 1, .opened, [], cs | _ + 1, .closed, [], cs | _ + 1, .name, [], cs => .ok cs
  | fuel + 1, .opened, frame :: frames, cs =>
    match skipBlank cs with
    | [] => .error .truncated
    | c :: rest =>
      if c = frame.close then skipFrom fuel .closed frames rest
      else if frame = .object then skipFrom fuel .name (frame :: frames) (c :: rest)
      else skipFrom fuel .value (frame :: frames) (c :: rest)
  | fuel + 1, .closed, frame :: frames, cs =>
    match skipBlank cs with
    | [] => .error .truncated
    | c :: rest =>
      if c = ',' then
        if frame = .object then skipFrom fuel .name (frame :: frames) rest
        else skipFrom fuel .value (frame :: frames) rest
      else if c = frame.close then skipFrom fuel .closed frames rest
      else .error .malformed
  | fuel + 1, .name, frame :: frames, cs => do
    skipFrom fuel .value (frame :: frames) (← skipName cs)

/-- Skips a value. -/
def skipValue (cs : List Char) : Except Problem (List Char) :=
  skipFrom (2 * cs.length + 2) .value [] cs

/-! ## Records -/

/-- Whether an array has another element; the comma before it is read. -/
def nextElement (first : Bool) (cs : List Char) : Except Problem (Option (List Char)) :=
  match skipBlank cs with
  | [] => .error .truncated
  | ']' :: _ => .ok none
  | ',' :: rest =>
    if first then .ok (some (',' :: rest))
    else
      match skipBlank rest with
      | [] => .error .truncated
      | ']' :: _ => .error .malformed
      | cs => .ok (some cs)
  | cs => if first then .ok (some cs) else .error .malformed

/-- Reads the next element of an array, if there is one. -/
def element? {α : Type} (first : Bool) (read : Reader α) : Reader (Option α) := fun cs => do
  match ← nextElement first cs with
  | none => .ok (none, cs)
  | some cs => (read cs).map fun (a, rest) => (some a, rest)

/-- Reads the next element of an array, which has to be there. -/
def element {α : Type} (first : Bool) (read : Reader α) : Reader α := fun cs => do
  match ← element? first read cs with
  | (some a, rest) => .ok (a, rest)
  | (none, _) => .error .mismatch

/-- Reads the end of an array; elements that nobody wants are no JSON. -/
def arrayEnd (cs : List Char) : Except Problem (List Char) :=
  match skipBlank cs with
  | [] => .error .truncated
  | ']' :: rest => .ok rest
  | _ => .error .malformed

/-- Where the next member of an object begins, after its opening quote; `none` at the end. -/
def nextMember (first : Bool) (cs : List Char) : Except Problem (Option (List Char)) :=
  match skipBlank cs with
  | [] => .error .truncated
  | '\x7d' :: _ => .ok none
  | '"' :: rest => if first then .ok (some rest) else .error .malformed
  | ',' :: rest =>
    if first then .error .malformed
    else
      match skipBlank rest with
      | [] => .error .truncated
      | '"' :: rest => .ok (some rest)
      | _ => .error .malformed
  | _ => .error .malformed

/-- Reads the colon after a name. -/
def colon (cs : List Char) : Except Problem (List Char) :=
  match skipBlank cs with
  | [] => .error .truncated
  | ':' :: rest => .ok rest
  | _ => .error .malformed

/-- What a record does with a member of the given name, if it takes one. -/
abbrev Members (σ : Type) := String → σ → Except Problem (Reader σ)

/-- Folds over the members of an object, which are fewer than `fuel`, up to its end. -/
def membersFrom {σ : Type} (step : Members σ) : Nat → Bool → σ → Reader σ
  | 0, _, _, _ => .error .truncated
  | fuel + 1, first, s, cs => do
    match ← nextMember first cs with
    | none => .ok (s, cs)
    | some cs =>
      let (name, cs) ← stringBody cs
      let read ← step (String.ofList name) s
      let (s, cs) ← read (← colon cs)
      membersFrom step fuel false s cs

/-- Folds over the members of an object, after its opening brace. -/
def objectMembers {σ : Type} (step : Members σ) (s : σ) : Reader σ := fun cs =>
  membersFrom step (cs.length + 1) true s cs

/-- Reads the end of an object. -/
def objectEnd (cs : List Char) : Except Problem (List Char) :=
  match skipBlank cs with
  | [] => .error .truncated
  | '\x7d' :: rest => .ok rest
  | _ => .error .malformed

/-- A member that is skipped. -/
def skipMember {σ : Type} (s : σ) : Reader σ := fun cs =>
  (skipValue cs).map (s, ·)

/-- A member that may be there once: its value goes into an empty place. -/
def member {α σ : Type} (old : Option α) (read : Reader α) (put : α → σ) :
    Except Problem (Reader σ) :=
  if old.isSome then .error .mismatch
  else .ok fun cs => (read cs).map fun (a, rest) => (put a, rest)

/-- A member that has to be there. -/
def required {α : Type} : Option α → Except Problem α
  | some a => .ok a
  | none => .error .mismatch

/-- Reads a record, written as an array or as an object. -/
def record {α : Type} (ofArray ofObject : Reader α) : Reader α := fun cs =>
  match skipBlank cs with
  | '[' :: cs => do
    let (a, cs) ← ofArray cs
    return (a, ← arrayEnd cs)
  | '\x7b' :: cs => do
    let (a, cs) ← ofObject cs
    return (a, ← objectEnd cs)
  | cs => .error (otherType cs)

/-- Reads a text that is one value with blanks around it. -/
def whole {α : Type} (read : Reader α) (s : String) : Except Problem α := do
  let (a, rest) ← read s.toList
  if skipBlank rest = [] then .ok a else .error .malformed

end Depot.Json
