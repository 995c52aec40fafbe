import Depot.Config
import Depot.Json.Reader
import Depot.Resource

/-!
# Resources and settings as JSON

Resources and settings are records that ignore members they do not know, lifetimes are records
that refuse them. The lifetime of the settings is the standard one if it is missing.

These are the readers of `Resource` and of `StorageConfig`.
-/

namespace Depot

open Json

/-! ## Resources -/

namespace Resource

/-- The fields of a resource that are read so far. -/
structure Partial where
  owner : Option String
  kind : Option String
  uuid : Option String
  version : Option UInt64

/-- Takes a member of a resource. -/
def takeMember : Members Partial := fun name p =>
  match name with
  | "owner" => member p.owner stringValue fun v => { p with owner := some v }
  | "kind" => member p.kind stringValue fun v => { p with kind := some v }
  | "uuid" => member p.uuid stringValue fun v => { p with uuid := some v }
  | "version" => member p.version naturalValue fun v => { p with version := some v }
  | _ => .ok (skipMember p)

/-- Reads the members of a resource. -/
def ofMembers : Reader Resource := fun cs => do
  let (p, cs) ← objectMembers takeMember ⟨none, none, none, none⟩ cs
  return (⟨← required p.owner, ← required p.kind, ← required p.uuid, ← required p.version⟩, cs)

/-- Reads the elements of a resource. -/
def ofElements : Reader Resource := fun cs => do
  let (owner, cs) ← element true stringValue cs
  let (kind, cs) ← element false stringValue cs
  let (uuid, cs) ← element false stringValue cs
  let (version, cs) ← element false naturalValue cs
  return (⟨owner, kind, uuid, version⟩, cs)

/-- Reads a resource. -/
def ofJson : String → Except Problem Resource :=
  whole (record ofElements ofMembers)

end Resource

/-! ## Lifetimes -/

namespace Lifetime

/-- Nanoseconds are given in 32 bits. -/
def nanosValue : Reader Nat := fun cs => do
  let (n, cs) ← naturalValue cs
  if n.toNat < UInt32.size then return (n.toNat, cs) else .error .mismatch

/-- A lifetime of seconds and nanoseconds, unless it is too long. -/
def ofRead (seconds : UInt64) (nanos : Nat) : Except Problem Lifetime :=
  match ofParts? seconds nanos with
  | some t => .ok t
  | none => .error .mismatch

/-- The parts of a lifetime that are read so far. -/
structure Partial where
  seconds : Option UInt64
  nanos : Option Nat

/-- Takes a member of a lifetime. -/
def takeMember : Members Partial := fun name p =>
  match name with
  | "secs" => member p.seconds naturalValue fun v => { p with seconds := some v }
  | "nanos" => member p.nanos nanosValue fun v => { p with nanos := some v }
  | _ => .error .mismatch

/-- Reads the members of a lifetime. -/
def ofMembers : Reader Lifetime := fun cs => do
  let (p, cs) ← objectMembers takeMember ⟨none, none⟩ cs
  return (← ofRead (← required p.seconds) (← required p.nanos), cs)

/-- Reads the elements of a lifetime. -/
def ofElements : Reader Lifetime := fun cs => do
  let (seconds, cs) ← element true naturalValue cs
  let (nanos, cs) ← element false nanosValue cs
  return (← ofRead seconds nanos, cs)

/-- Reads a lifetime. -/
def value : Reader Lifetime :=
  record ofElements ofMembers

end Lifetime

/-! ## Settings -/

namespace Config

/-- The settings that are read so far. -/
structure Partial where
  uri : Option String
  linkLifetime : Option Lifetime

/-- Takes a member of the settings. -/
def takeMember : Members Partial := fun name p =>
  match name with
  | "uri" => member p.uri stringValue fun v => { p with uri := some v }
  | "link_ttl" => member p.linkLifetime Lifetime.value fun v => { p with linkLifetime := some v }
  | _ => .ok (skipMember p)

/-- Reads the members of the settings. -/
def ofMembers : Reader Config := fun cs => do
  let (p, cs) ← objectMembers takeMember ⟨none, none⟩ cs
  return (⟨← required p.uri, p.linkLifetime.getD .standard⟩, cs)

/-- Reads the elements of the settings. -/
def ofElements : Reader Config := fun cs => do
  let (uri, cs) ← element true stringValue cs
  let (linkLifetime, cs) ← element? false Lifetime.value cs
  return (⟨uri, linkLifetime.getD .standard⟩, cs)

/-- Reads settings. -/
def ofJson : String → Except Problem Config :=
  whole (record ofElements ofMembers)

end Config

end Depot
