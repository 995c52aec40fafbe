import Depot.Location
import Depot.Object.Store
import Depot.Volume.Walk

/-!
# Procedures

What a storage does is a `Procedure`: it is done, or it makes a call and goes on with the reply.
Calls are the only effects there are. Each is one atomic step on the disk or on an object store;
`run` answers them one after the other from a state.

An `Action` is a procedure that may fail.

Out of scope: calls that are under way at the same time. What two procedures do at the same time is
told by the order of their calls (`Depot.Race`).
-/

namespace Depot

/-- An open file. -/
abbrev Handle := Place

/-- The object store that a bucket is in: one with a name, or one of a service far away. -/
inductive StoreRef where
  | named (name : String)
  | service (location : Location)
  deriving DecidableEq

/-- What a procedure can ask for. -/
inductive Call where
  | stat (p : Path)
  | walk (p : Path)
  | openFile (p : Path)
  | mode (h : Handle)
  | read (h : Handle)
  | makeDirectories (p : Path)
  | create (p : Path)
  | write (h : Handle) (content : Content)
  /-- Copies an open file to one that was made or emptied. -/
  | copy (source dest : Handle)
  | copyFile (source dest : Path)
  | remove (p : Path)
  | rename (p q : Path)
  /-- Thirty-two fresh digits for the name of a file. -/
  | nonce
  | put (store : StoreRef) (p : ObjectPath) (content : Content)
  | get (store : StoreRef) (p : ObjectPath)
  | body (store : StoreRef) (content : Content)
  | head (store : StoreRef) (p : ObjectPath)
  | sign (store : StoreRef) (p : ObjectPath) (lifetime : Lifetime)

/-- What a call is answered with. -/
abbrev Call.Reply : Call → Type
  | .stat _ => Except IoKind FileKind
  | .walk _ => Except IoKind (List Found)
  | .openFile _ | .create _ => Except IoKind Handle
  | .mode _ => Mode
  | .read _ => Except IoKind Content
  | .makeDirectories _ | .write .. | .copy .. | .copyFile .. | .remove _ | .rename .. =>
    Except IoKind Unit
  | .nonce => Bytes
  | .put .. | .head .. => Except StoreError Unit
  | .get .. | .body .. => Except StoreError Content
  | .sign .. => Except StoreError String

/-- A computation that makes calls. -/
inductive Procedure (α : Type) where
  | done (a : α)
  | ask (c : Call) (next : c.Reply → Procedure α)

namespace Procedure

variable {α β γ : Type}

/-- Goes on with the result of a procedure. -/
def bind : Procedure α → (α → Procedure β) → Procedure β
  | .done a, f => f a
  | .ask c next, f => .ask c fun r => (next r).bind f

instance : Monad Procedure where
  pure := .done
  bind := bind

/-- One call. -/
def ofCall (c : Call) : Procedure c.Reply :=
  .ask c .done

/-- Runs a procedure with a function that answers calls from a state. -/
def run {σ : Type} (answer : (c : Call) → σ → c.Reply × σ) : Procedure α → σ → α × σ
  | .done a, s => (a, s)
  | .ask c next, s =>
    let (r, s) := answer c s
    (next r).run answer s

theorem bind_assoc (p : Procedure α) (f : α → Procedure β) (g : β → Procedure γ) :
    (p.bind f).bind g = p.bind fun a => (f a).bind g := by
  induction p with
  | done a => rfl
  | ask c next ih => simp only [bind, ih]

theorem bind_done (p : Procedure α) : p.bind .done = p := by
  induction p with
  | done a => rfl
  | ask c next ih => simp only [bind, ih]

/-- Running one procedure after the other hands the state on. -/
theorem run_bind {σ : Type} (answer : (c : Call) → σ → c.Reply × σ) (p : Procedure α)
    (f : α → Procedure β) (s : σ) :
    (p.bind f).run answer s = (f (p.run answer s).1).run answer (p.run answer s).2 := by
  induction p generalizing s with
  | done a => rfl
  | ask c next ih => simp only [bind, run, ih]

end Procedure

/-- A procedure that may fail. -/
abbrev Action := ExceptT StorageError Procedure

/-- A call whose failure is a failure of the action. -/
def Action.ofReply {ε α : Type} (fail : ε → StorageError) (p : Procedure (Except ε α)) : Action α :=
  ExceptT.mk (p.bind fun r => .done (r.mapError fail))

/-- A system call whose failure is the failure of an attempt. -/
def Action.trying {α : Type} (attempt : Attempt) (p : Procedure (Except IoKind α)) : Action α :=
  ofReply (.system attempt) p

/-- A call from whose reply is concluded what the action gives. -/
def Action.concluding {α : Type} (c : Call) (f : c.Reply → Except StorageError α) : Action α :=
  ExceptT.mk ((Procedure.ofCall c).bind fun r => .done (f r))

/-- Fails, or goes on. -/
def Action.check {α : Type} (r : Except StorageError α) : Action α :=
  ExceptT.mk (.done r)

/-- A procedure that cannot fail, as an action. -/
def Action.ofProcedure {α : Type} (p : Procedure α) : Action α :=
  ExceptT.mk (p.bind fun a => .done (.ok a))

/-- Refuses a resource that cannot be stored. -/
def Action.checkResource (r : Resource) : Action Unit :=
  check (r.check.mapError .invalid)

end Depot
