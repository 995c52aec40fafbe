import Depot.Queue.Search

/-!
# Moving and removing values

Values are named by equality, which need not be an equivalence: the first value that is equal to
the one named is the one that is meant. Moving to an end exchanges neighbours step by step, so the
others keep their order.

These are `remove`, `swap`, `move_to_front` and `move_to_back` (the specification, section 4.1).
-/

namespace Depot.Queue

variable {α : Type}

/-- A list with the values at two indices exchanged. -/
def exchange (xs : List α) (i j : Nat) : List α :=
  match xs[i]?, xs[j]? with
  | some a, some b => (xs.set i b).set j a
  | _, _ => xs

/-- A list with the value at `i` moved to the front, neighbour by neighbour. -/
def rotateToFront (xs : List α) : Nat → List α
  | 0 => xs
  | i + 1 => rotateToFront (exchange xs (i + 1) i) i

/-- A list with the value at `i` moved by `steps` towards the end, neighbour by neighbour. -/
def rotateToBack (xs : List α) (i : Nat) : Nat → List α
  | 0 => xs
  | steps + 1 => rotateToBack (exchange xs i (i + 1)) (i + 1) steps

variable [BEq α]

/-- Removes the value named. -/
def remove (q : Queue α) (target : α) : Except QueueError Unit × Queue α :=
  match q.indexOf? target with
  | none => (.error .notFound, q)
  | some i => (.ok (), { q with items := q.items.eraseIdx i })

/-- Exchanges the two values named. -/
def swap (q : Queue α) (a b : α) : Except QueueError Unit × Queue α :=
  if q.items.isEmpty then (.error .empty, q)
  else
    match q.indexOf? a, q.indexOf? b with
    | some i, some j =>
      if i = j then (.error .sameIndex, q) else (.ok (), { q with items := exchange q.items i j })
    | _, _ => (.error .notFound, q)

/-- Moves the value named to the front, unless it is there. -/
def moveToFront (q : Queue α) (target : α) : Except QueueError Unit × Queue α :=
  if q.items.isEmpty then (.error .empty, q)
  else
    match q.indexOf? target with
    | none => (.error .notFound, q)
    | some 0 => (.error .atFront, q)
    | some i => (.ok (), { q with items := rotateToFront q.items i })

/-- Moves the value named to the back, unless it is there. -/
def moveToBack (q : Queue α) (target : α) : Except QueueError Unit × Queue α :=
  if q.items.isEmpty then (.error .empty, q)
  else
    match q.indexOf? target with
    | none => (.error .notFound, q)
    | some i =>
      if i + 1 = q.size then (.error .atBack, q)
      else (.ok (), { q with items := rotateToBack q.items i (q.size - 1 - i) })

end Depot.Queue
