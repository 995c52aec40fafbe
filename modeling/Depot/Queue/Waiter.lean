import Depot.Queue.Basic

/-!
# Consumers that wait

A `Waiter` is a consumer that asks again and again until it has its result
(`dequeue_or_wait_async`). It registers when it is first asked. It may be abandoned at any time
(the drop of a `PendingListener`): a value that was handed to it and that it has not taken goes back
to the queue.

A consumer that blocks (`dequeue_or_wait_for_next_element`) behaves like a waiter that is asked at
once and is never abandoned.

Out of scope: how a consumer sleeps, and what wakes it up.
-/

namespace Depot.Queue

variable {α : Type}

/-- A consumer that has no result yet. -/
inductive Waiter where
  /-- It was not asked yet. -/
  | fresh
  /-- It has registered. -/
  | registered (t : Ticket)
  deriving DecidableEq, Repr

/-- What a consumer answers when it is asked. -/
inductive Poll (α : Type) where
  | pending (w : Waiter)
  | done (r : Except QueueError α)

/-- The consumer that is left after an answer. -/
def Poll.waiter? : Poll α → Option Waiter
  | .pending w => some w
  | .done _ => none

/-- The first step of a consumer: takes a value or registers. -/
def attempt (q : Queue α) : Poll α × Queue α :=
  match q.register with
  | (.ready v, q) => (.done (.ok v), q)
  | (.waiting t, q) => (.pending (.registered t), q)
  | (.refused e, q) => (.done (.error e), q)

/-- Asks a consumer. One whose listener is gone although nothing was handed to it starts anew. -/
def poll (q : Queue α) : Waiter → Poll α × Queue α
  | .fresh => q.attempt
  | .registered t =>
    match q.channel? t with
    | some (some v) => (.done (.ok v), q.close t)
    | some none => if t ∈ q.listeners then (.pending (.registered t), q) else (q.close t).attempt
    | none => q.attempt

/-- Abandons a consumer; what was handed to it goes back to the queue. -/
def abandon (q : Queue α) : Waiter → Queue α
  | .fresh => q
  | .registered t =>
    match q.channel? t with
    | some (some v) => (q.close t).restore v
    | _ => q.close t

end Depot.Queue
