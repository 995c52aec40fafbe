import Depot.Procedure

/-!
# Worlds

A world is a volume and the object stores that have a name. `World.answer` says what each call
does to it, and `World.perform` runs a procedure in it. The stores of services are out of reach.

Out of scope: who else writes to the volume or to the stores; where a result is about that, it says
what may change between two requests.
-/

namespace Depot

/-- What procedures act on. -/
structure World where
  volume : Volume
  stores : List (String × ObjectStore)
  /-- What the signed URLs begin with. -/
  origin : String
  /-- The number of nonces that were given out. -/
  nonces : Nat

namespace World

/-- A world with a volume, but without stores. -/
def ofVolume (volume : Volume) (origin : String) : World :=
  ⟨volume, [], origin, 0⟩

/-- The store of a name, which is empty at first. -/
def store (w : World) (name : String) : ObjectStore :=
  (w.stores.lookup name).getD .empty

/-- The world with the store of a name. -/
def setStore (w : World) (name : String) (s : ObjectStore) : World :=
  { w with stores := (name, s) :: w.stores.filter (·.1 != name) }

/-- The thirty-two hexadecimal digits of a number. -/
def nonceDigits (n : Nat) : Bytes :=
  let digits := Text.encode (String.ofList (Nat.toDigits 16 n))
  List.replicate (32 - digits.length) 0x30 ++ digits

/-- Answers a call that changes the volume if it succeeds. -/
def changing (w : World) : Except IoKind Volume → Except IoKind Unit × World
  | .ok volume => (.ok (), { w with volume })
  | .error k => (.error k, w)

/-- Answers a call that may change the volume in any case. -/
def left (w : World) (r : Except IoKind Unit × Volume) : Except IoKind Unit × World :=
  (r.1, { w with volume := r.2 })

/-- Answers a call to a store. -/
def asking {α : Type} (w : World) (s : StoreRef)
    (request : ObjectStore → Except StoreError α × ObjectStore) : Except StoreError α × World :=
  match s with
  | .named name =>
    let (r, s) := request (w.store name)
    (r, w.setStore name s)
  | .service _ => (.error .other, w)

/-- What a call does. -/
def answer : (c : Call) → World → c.Reply × World
  | .stat p, w => (w.volume.stat p, w)
  | .walk p, w => (w.volume.walk p, w)
  | .openFile p, w => (w.volume.openFile p, w)
  | .mode h, w => (w.volume.modeAt h, w)
  | .read h, w => (w.volume.readAt h, w)
  | .makeDirectories p, w => w.left (w.volume.makeDirectories p)
  | .create p, w =>
    match w.volume.create p with
    | .ok (h, volume) => (.ok h, { w with volume })
    | .error k => (.error k, w)
  | .write h content, w => w.left (w.volume.writeAt h content)
  | .copy h h', w => w.left (w.volume.copyAt h h')
  | .copyFile p q, w => w.left (w.volume.copyFile p q)
  | .remove p, w => w.changing (w.volume.remove p)
  | .rename p q, w => w.changing (w.volume.rename p q)
  | .nonce, w => (nonceDigits w.nonces, { w with nonces := w.nonces + 1 })
  | .put s p content, w => w.asking s (·.put p content)
  | .get s p, w => w.asking s (·.get p)
  | .body s content, w => w.asking s (·.body content)
  | .head s p, w => w.asking s (·.head p)
  | .sign s p t, w => w.asking s (·.sign w.origin p t)

/-- Runs a procedure. -/
def perform {α : Type} (w : World) (p : Procedure α) : α × World :=
  p.run answer w

end World

end Depot
