/-!
# Lifetimes of links

A lifetime is a length of time in whole seconds and nanoseconds, as far as 64 bits of seconds go.

Out of scope: the clock by which a link expires.
-/

namespace Depot

/-- The nanoseconds of a second. -/
def nanosPerSecond : Nat := 1000000000

/-- A length of time. -/
structure Lifetime where
  seconds : UInt64
  nanos : Fin nanosPerSecond
  deriving DecidableEq, Repr

namespace Lifetime

/-- A whole number of seconds. -/
def ofSeconds (seconds : UInt64) : Lifetime :=
  ⟨seconds, ⟨0, by decide⟩⟩

/-- Nanoseconds carry into the seconds, which may overflow. -/
def ofParts? (seconds : UInt64) (nanos : Nat) : Option Lifetime :=
  let total := seconds.toNat + nanos / nanosPerSecond
  if total < UInt64.size then
    some ⟨UInt64.ofNat total, ⟨nanos % nanosPerSecond, Nat.mod_lt _ (by decide)⟩⟩
  else none

/-- A number of minutes, cut off at the longest whole number of seconds. -/
def ofMinutes (minutes : UInt64) : Lifetime :=
  ofSeconds (UInt64.ofNat (min (minutes.toNat * 60) (UInt64.size - 1)))

/-- An hour, the lifetime of links where none is given. -/
def standard : Lifetime :=
  ofSeconds 3600

end Lifetime

end Depot
