/-!
# JSON numbers

`number` reads a number whose minus sign, if it has one, is already read. A number counts as
natural if it is written without sign, fraction and exponent and fits into 64 bits; all that
matters of any other number is that its value fits into the range of doubles.

The value is kept as a significand of at most 64 bits and an exponent of ten. Digits that do not
fit into the significand only raise the exponent, in the whole part, or are left out, in the
fraction.
-/

namespace Depot.Json

/-- The three ways in which a text fails to be the value that is wanted. -/
inductive Problem where
  /-- The text is no JSON. -/
  | malformed
  /-- The text is another value. -/
  | mismatch
  /-- The text ends too early. -/
  | truncated
  deriving DecidableEq, Repr

/-- Reads a value at the start of a text and gives the rest. -/
abbrev Reader (α : Type) := List Char → Except Problem (α × List Char)

/-- What a number is to those who want a natural one. -/
inductive Number where
  | natural (n : UInt64)
  | other
  deriving DecidableEq, Repr

/-- The value of a decimal digit. -/
def digitValue (c : Char) : Nat :=
  c.toNat - '0'.toNat

/-- The nearest number with 53 significant bits; a tie goes to the even one. -/
def roundTo53 (n : Nat) : Nat :=
  let shift := n.log2 - 52
  let kept := n >>> shift
  let cut := n - (kept <<< shift)
  let half := (1 <<< shift) / 2
  if shift ≠ 0 ∧ (half < cut ∨ half = cut ∧ kept % 2 = 1) then (kept + 1) <<< shift
  else kept <<< shift

/-- The product of two doubles from here on is infinite. -/
def doubleLimit : Nat := 1 <<< 1024 - 1 <<< 970

/-- Whether a significand with an exponent of ten is too large for a double. -/
def outOfRange (significand : Nat) (exponent : Int) : Bool :=
  match exponent with
  | .negSucc _ => false
  | .ofNat e =>
    significand != 0 &&
      (decide (308 < e) || decide (doubleLimit ≤ roundTo53 significand * roundTo53 (Nat.pow 10 e)))

/-- A number that is not natural, unless it is out of range. -/
def inRange (significand : Nat) (exponent : Int) (rest : List Char) :
    Except Problem (Number × List Char) :=
  if outOfRange significand exponent then .error .malformed else .ok (.other, rest)

/-- Takes the digits that still fit into 64 bits. -/
def takeDigits (significand : Nat) : List Char → Nat × Nat × List Char
  | [] => (significand, 0, [])
  | c :: cs =>
    if c.isDigit ∧ significand * 10 + digitValue c < UInt64.size then
      let (s, taken, rest) := takeDigits (significand * 10 + digitValue c) cs
      (s, taken + 1, rest)
    else (significand, 0, c :: cs)

/-- Reads an exponent, after its `e`. -/
def exponentPart (significand : Nat) (exponent : Int) (cs : List Char) :
    Except Problem (Number × List Char) :=
  let (negative, cs) :=
    match cs with
    | '+' :: cs => (false, cs)
    | '-' :: cs => (true, cs)
    | cs => (false, cs)
  match cs with
  | [] => .error .truncated
  | c :: _ =>
    if c.isDigit then
      let e : Int := (cs.takeWhile Char.isDigit).foldl (fun n d => n * 10 + digitValue d) 0
      inRange significand (if negative then exponent - e else exponent + e)
        (cs.dropWhile Char.isDigit)
    else .error .malformed

/-- What follows the digits of a number: an exponent or nothing. -/
def afterDigits (significand : Nat) (exponent : Int) (cs : List Char) :
    Except Problem (Number × List Char) :=
  match cs with
  | 'e' :: cs | 'E' :: cs => exponentPart significand exponent cs
  | cs => inRange significand exponent cs

/-- Reads a fraction, after its point. -/
def fractionPart (significand : Nat) (exponent : Int) (cs : List Char) :
    Except Problem (Number × List Char) :=
  match cs with
  | [] => .error .truncated
  | c :: _ =>
    if c.isDigit then
      let (s, taken, rest) := takeDigits significand cs
      afterDigits s (exponent - taken) (rest.dropWhile Char.isDigit)
    else .error .malformed

/-- What follows the whole part of a number. -/
def afterWhole (negative : Bool) (significand : Nat) : Reader Number
  | '.' :: cs => fractionPart significand 0 cs
  | 'e' :: cs | 'E' :: cs => exponentPart significand 0 cs
  | cs => .ok (if negative then .other else .natural (UInt64.ofNat significand), cs)

/-- What follows the digits of a whole part that is too long for 64 bits. -/
def afterLongWhole (significand : Nat) (cs : List Char) : Except Problem (Number × List Char) :=
  let exponent := (cs.takeWhile Char.isDigit).length
  match cs.dropWhile Char.isDigit with
  | '.' :: cs => fractionPart significand exponent cs
  | cs => afterDigits significand exponent cs

/-- Reads a number after its sign. -/
def number (negative : Bool) : Reader Number
  | [] => .error .truncated
  | '0' :: cs =>
    match cs with
    | [] => afterWhole negative 0 []
    | c :: _ => if c.isDigit then .error .malformed else afterWhole negative 0 cs
  | c :: cs =>
    if c.isDigit then
      match takeDigits 0 (c :: cs) with
      | (significand, _, []) => afterWhole negative significand []
      | (significand, _, d :: rest) =>
        if d.isDigit then afterLongWhole significand (d :: rest)
        else afterWhole negative significand (d :: rest)
    else .error .malformed

/-- Skips an exponent, after its `e`. -/
def skipExponent (cs : List Char) : Except Problem (List Char) :=
  let cs :=
    match cs with
    | '+' :: cs | '-' :: cs => cs
    | cs => cs
  match cs with
  | [] => .error .malformed
  | c :: _ => if c.isDigit then .ok (cs.dropWhile Char.isDigit) else .error .malformed

/-- Skips a fraction, after its point. -/
def skipFraction (cs : List Char) : Except Problem (List Char) :=
  match cs with
  | [] => .error .malformed
  | c :: _ =>
    if c.isDigit then
      match cs.dropWhile Char.isDigit with
      | 'e' :: rest | 'E' :: rest => skipExponent rest
      | rest => .ok rest
    else .error .malformed

/-- Skips what follows the whole part of a number. -/
def skipAfterWhole : List Char → Except Problem (List Char)
  | '.' :: cs => skipFraction cs
  | 'e' :: cs | 'E' :: cs => skipExponent cs
  | cs => .ok cs

/-- Skips a number after its sign, whatever its value; an end that comes too early is no JSON. -/
def skipNumber : List Char → Except Problem (List Char)
  | [] => .error .malformed
  | '0' :: cs =>
    match cs with
    | [] => .ok []
    | c :: _ => if c.isDigit then .error .malformed else skipAfterWhole cs
  | c :: cs => if c.isDigit then skipAfterWhole (cs.dropWhile Char.isDigit) else .error .malformed

end Depot.Json
