/-!
# Queues with waiting consumers

A queue holds values in the order in which they came. A consumer that finds none may wait: it
registers a listener, and the next value is handed to the oldest listener whose consumer still
waits, without ever being stored.

* A listener is known by its `Ticket`; tickets are given out in order and never twice.
* `listeners` are the tickets in the order of registration. A ticket stays there when its consumer
  goes away, until a value is offered to it or another consumer registers.
* `channels` are the consumers that still wait, each with the value that was handed to it and that
  it has not yet taken.

The operations are those of `Queue` by the same names (the specification, section 4.1): `enqueue`
hands a value over (`hand_off` of `Inner`) or stores it at the end, `restore` does the same for a
value that a consumer left behind, which goes to the front, `dequeue` takes the first value, and
`register` takes one or registers. Each of them holds the lock of the queue from its first step to
its last, so it is one step here.

Out of scope: the lock itself, and the memory that a queue takes.
-/

namespace Depot

/-- Why an operation of a queue fails. -/
inductive QueueError where
  | empty
  | outOfBounds
  | notFound
  | sameIndex
  | atFront
  | atBack
  | tooManyListeners
  deriving DecidableEq, Repr

/-- The text of a queue's error. -/
def QueueError.message : QueueError → String
  | .empty => "queue is empty"
  | .outOfBounds => "index out of bounds"
  | .notFound => "id not found"
  | .sameIndex => "swap indexes match"
  | .atFront => "element is already at the front of the queue"
  | .atBack => "element is already at the back of the queue"
  | .tooManyListeners => "too many listeners waiting for the next element"

/-- Names a registration. -/
abbrev Ticket := Nat

/-- A queue, its listeners, and what was handed to consumers that still wait. -/
structure Queue (α : Type) where
  items : List α
  listeners : List Ticket
  channels : List (Ticket × Option α)
  capacity : Nat
  nextTicket : Ticket
  deriving DecidableEq, Repr

namespace Queue

variable {α : Type}

/-- The number of consumers that may wait at once where no other number is given. -/
def standardCapacity : Nat := 1000

/-- The empty queue for at most `capacity` waiting consumers. -/
def empty (capacity : Nat) : Queue α :=
  ⟨[], [], [], capacity, 0⟩

/-! ## Channels -/

/-- What is known of a consumer that still waits: the value that was handed to it, if any. -/
def channel? (q : Queue α) (t : Ticket) : Option (Option α) :=
  q.channels.lookup t

/-- Whether the consumer of a ticket still waits. -/
def isLive (q : Queue α) (t : Ticket) : Bool :=
  (q.channel? t).isSome

/-- Hands a value to the consumer of a ticket. -/
def deliver (q : Queue α) (t : Ticket) (v : α) : Queue α :=
  { q with channels := q.channels.map fun c => if c.1 = t then (t, some v) else c }

/-- Forgets the consumer of a ticket. -/
def close (q : Queue α) (t : Ticket) : Queue α :=
  { q with channels := q.channels.filter fun c => c.1 != t }

/-- `hand_off`: offers a value to the listeners in order; those whose consumer is gone are dropped
on the way. Says whether one took it. -/
def handOff (q : Queue α) (v : α) : Bool × Queue α :=
  match q.listeners.dropWhile fun t => !q.isLive t with
  | [] => (false, { q with listeners := [] })
  | t :: rest => (true, { q.deliver t v with listeners := rest })

/-! ## Values in and out -/

/-- `enqueue`: hands a value to the oldest consumer that waits, or stores it at the end. -/
def enqueue (q : Queue α) (v : α) : Queue α :=
  match q.handOff v with
  | (true, q) => q
  | (false, q) => { q with items := q.items ++ [v] }

/-- `restore`: hands a value that was left behind to the oldest consumer that waits, or puts it in
front. -/
def restore (q : Queue α) (v : α) : Queue α :=
  match q.handOff v with
  | (true, q) => q
  | (false, q) => { q with items := v :: q.items }

/-- `dequeue`: takes the first value. -/
def dequeue (q : Queue α) : Except QueueError α × Queue α :=
  match q.items with
  | [] => (.error .empty, q)
  | v :: rest => (.ok v, { q with items := rest })

/-- What comes of a consumer that takes a value or waits for one. -/
inductive Registration (α : Type) where
  | ready (v : α)
  | waiting (t : Ticket)
  | refused (e : QueueError)
  deriving DecidableEq, Repr

/-- `register`: takes the first value; if there is none, drops the listeners whose consumer is gone
and registers a new one, unless the queue has as many as it may. -/
def register (q : Queue α) : Registration α × Queue α :=
  match q.items with
  | v :: rest => (.ready v, { q with items := rest })
  | [] =>
    let live := q.listeners.filter q.isLive
    if q.capacity ≤ live.length then
      (.refused .tooManyListeners, { q with listeners := live })
    else
      let t := q.nextTicket
      (.waiting t,
        { q with
          listeners := live ++ [t], channels := q.channels ++ [(t, none)], nextTicket := t + 1 })

/-! ## What a queue says of itself -/

/-- The number of values. -/
def size (q : Queue α) : Nat :=
  q.items.length

/-- The number of listeners, those whose consumer is gone included. -/
def listenerCount (q : Queue α) : Nat :=
  q.listeners.length

/-- The numbers that describe a queue. -/
def facts (q : Queue α) : List (String × Nat) :=
  [("len", q.size), ("listeners", q.listenerCount), ("max_listeners", q.capacity)]

/-- A description of the queue on one line. -/
def describe (q : Queue α) : String :=
  "Queue \x7b " ++ ", ".intercalate (q.facts.map fun f => f.1 ++ ": " ++ f.2.repr) ++ " \x7d"

/-- A description of the queue with one line for each number. -/
def describeLines (q : Queue α) : String :=
  "Queue \x7b\n" ++ String.join (q.facts.map fun f => "    " ++ f.1 ++ ": " ++ f.2.repr ++ ",\n")
    ++ "\x7d"

end Queue

end Depot
