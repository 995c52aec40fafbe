import Depot.Content
import Depot.Error
import Depot.Lifetime
import Depot.Object.Path

/-!
# Object stores

An object store keeps contents under paths. Requests to it can be made to fail: `faults` is a
queue of failures to come. A request looks at the first fault for its step, which lets as many
requests pass as it says and is then used up by the one that fails.

Out of scope: lists of objects, copies and deletions, which no storage here asks for.
-/

namespace Depot

/-- The steps in which a store is asked for something. -/
inductive StoreStep where
  | put
  | get
  /-- Reading the body of an object that was found. -/
  | body
  | head
  | sign
  deriving DecidableEq, Repr

/-- A failure to come. -/
structure Fault where
  step : StoreStep
  /-- The number of requests that pass before. -/
  skip : Nat
  error : StoreError
  deriving DecidableEq, Repr

/-- The objects of a store and the failures to come. -/
structure ObjectStore where
  objects : List (ObjectPath × Content)
  faults : List Fault

/-- Looks for a fault of a step among the faults to come. -/
def Fault.trip (step : StoreStep) : List Fault → Option StoreError × List Fault
  | [] => (none, [])
  | f :: rest =>
    if f.step = step then
      match f.skip with
      | 0 => (some f.error, rest)
      | skip + 1 => (none, { f with skip } :: rest)
    else
      let (e, rest) := trip step rest
      (e, f :: rest)

namespace ObjectStore

/-- The store without objects. -/
def empty : ObjectStore :=
  ⟨[], []⟩

/-- The object at a path. -/
def find? (s : ObjectStore) (p : ObjectPath) : Option Content :=
  s.objects.lookup p

/-- The objects with one put at a path, in place of the one that is there. -/
def insert (p : ObjectPath) (c : Content) :
    List (ObjectPath × Content) → List (ObjectPath × Content)
  | [] => [(p, c)]
  | (q, d) :: rest => if p = q then (p, c) :: rest else (q, d) :: insert p c rest

/-- Asks for a step, which fails if a fault comes up; else `answer` says what comes of it. -/
def request {α : Type} (s : ObjectStore) (step : StoreStep)
    (answer : ObjectStore → Except StoreError α × ObjectStore) :
    Except StoreError α × ObjectStore :=
  match Fault.trip step s.faults with
  | (some e, faults) => (.error e, { s with faults })
  | (none, faults) => answer { s with faults }

/-- The object at a path, which has to be there. -/
def found (s : ObjectStore) (p : ObjectPath) : Except StoreError Content :=
  match s.find? p with
  | some c => .ok c
  | none => .error .notFound

/-- Puts an object. -/
def put (s : ObjectStore) (p : ObjectPath) (c : Content) : Except StoreError Unit × ObjectStore :=
  s.request .put fun s => (.ok (), { s with objects := insert p c s.objects })

/-- Finds an object. -/
def get (s : ObjectStore) (p : ObjectPath) : Except StoreError Content × ObjectStore :=
  s.request .get fun s => (s.found p, s)

/-- Reads the body of an object that was found. -/
def body (s : ObjectStore) (c : Content) : Except StoreError Content × ObjectStore :=
  s.request .body fun s => (.ok c, s)

/-- Asks whether there is an object. -/
def head (s : ObjectStore) (p : ObjectPath) : Except StoreError Unit × ObjectStore :=
  s.request .head fun s => ((s.found p).map fun _ => (), s)

/-- Whether an octet stands for itself in a parameter of a signed URL. -/
def keepsInUrl (b : UInt8) : Bool :=
  let c := Char.ofNat b.toNat
  c.isAlphanum || ['/', '_', '.', '-'].contains c

/-- The URL under `origin` from which an object can be fetched for a while. -/
def signedUrl (origin : String) (p : ObjectPath) (t : Lifetime) : String :=
  origin ++ "?path=" ++ String.ofList (percentEncode keepsInUrl (Text.encode p.text))
    ++ "&method=GET&secs=" ++ t.seconds.toNat.repr ++ "&nanos=" ++ t.nanos.val.repr

/-- Signs a URL for an object. -/
def sign (s : ObjectStore) (origin : String) (p : ObjectPath) (t : Lifetime) :
    Except StoreError String × ObjectStore :=
  s.request .sign fun s => (.ok (signedUrl origin p t), s)

end ObjectStore

end Depot
