import Depot.Queue.Reorder
import Depot.Queue.Waiter

/-!
# A queue and its consumers by name

A session is a queue together with the consumers that use it: waiters, which are asked and may be
dropped, and blocking consumers, which are started and joined. Both are known by a name; the two
sorts have names of their own.

Out of scope: operations on the queue by who is no consumer; these change `queue` alone.
-/

namespace Depot.Queue

variable {α : Type}

/-- A queue and its named consumers. -/
structure Session (α : Type) where
  queue : Queue α
  waiters : List (String × Waiter)
  blocking : List (String × Waiter)

namespace Session

/-- A session without consumers. -/
def ofQueue (q : Queue α) : Session α :=
  ⟨q, [], []⟩

/-- What is left of a table without a name. -/
def without (name : String) (ws : List (String × Waiter)) : List (String × Waiter) :=
  ws.filter (·.1 != name)

/-- Makes a waiter that was not asked yet; another one of that name is abandoned. -/
def wait (s : Session α) (name : String) : Session α :=
  let queue := match s.waiters.lookup name with
    | some old => s.queue.abandon old
    | none => s.queue
  { s with queue, waiters := (name, .fresh) :: without name s.waiters }

/-- A table after the consumer of a name was asked: a consumer goes with its result. -/
def answered (name : String) (p : Poll α) (ws : List (String × Waiter)) : List (String × Waiter) :=
  (p.waiter?.map fun w => (name, w)).toList ++ without name ws

/-- Asks the consumer of a name in a table; `none` if there is no such consumer. -/
def ask (q : Queue α) (ws : List (String × Waiter)) (name : String) :
    Option (Poll α) × Queue α × List (String × Waiter) :=
  match ws.lookup name with
  | none => (none, q, ws)
  | some w =>
    let (p, q) := q.poll w
    (some p, q, answered name p ws)

/-- Asks the waiter of a name, if there is one. -/
def poll (s : Session α) (name : String) : Option (Poll α) × Session α :=
  let (p, queue, waiters) := ask s.queue s.waiters name
  (p, { s with queue, waiters })

/-- Abandons the waiter of a name, if there is one. -/
def drop (s : Session α) (name : String) : Bool × Session α :=
  match s.waiters.lookup name with
  | none => (false, s)
  | some w => (true, { s with queue := s.queue.abandon w, waiters := without name s.waiters })

/-- Starts a blocking consumer, which is kept if it has to wait. -/
def start (s : Session α) (name : String) : Poll α × Session α :=
  match s.queue.attempt with
  | (.pending w, queue) =>
    (.pending w, { s with queue, blocking := (name, w) :: without name s.blocking })
  | (.done r, queue) => (.done r, { s with queue })

/-- Takes the result of the blocking consumer of a name, if there is one. -/
def join (s : Session α) (name : String) : Option (Poll α) × Session α :=
  let (p, queue, blocking) := ask s.queue s.blocking name
  (p, { s with queue, blocking })

end Session

end Depot.Queue
