import Depot.Queue.Basic

/-!
# Looking into a queue

Values are looked up by their index, by pages, or by a predicate, which may have effects and is
asked once for each value, from front to back.

* `get` is `get_element`, `page` is `get_filtered_elements`, and `pick` is `find_by_ids`; what
  `get_elements` gives are the `items`.
* `find` is `find`, `indexOf?` is `find_one`, by which values are named elsewhere as well
  (`position`).

Out of scope: a predicate that never answers.
-/

namespace Depot.Queue

variable {α : Type}

/-- The value at an index. -/
def get (q : Queue α) (i : Nat) : Except QueueError α :=
  match q.items[i]? with
  | some v => .ok v
  | none => .error .outOfBounds

/-- At most `limit` values from `offset` on; there has to be at least one. -/
def page (q : Queue α) (offset limit : Nat) : Except QueueError (List α) :=
  if q.size ≤ offset ∨ limit = 0 then .error .outOfBounds
  else .ok ((q.items.drop offset).take limit)

/-- The values at those of the indices that have one, in the order of the indices. -/
def pick (q : Queue α) (indices : List Nat) : List α :=
  indices.filterMap fun i => q.items[i]?

/-- The indices from `i` on of the values that a predicate accepts. -/
def findFrom {m : Type → Type} [Monad m] (p : α → m Bool) (i : Nat) : List α → m (List Nat)
  | [] => pure []
  | v :: vs => do
    if ← p v then return i :: (← findFrom p (i + 1) vs) else findFrom p (i + 1) vs

/-- The indices of the values that a predicate accepts. -/
def find {m : Type → Type} [Monad m] (q : Queue α) (p : α → m Bool) : m (List Nat) :=
  findFrom p 0 q.items

/-- The index of the first value that is equal to `target`. -/
def indexOf? [BEq α] (q : Queue α) (target : α) : Option Nat :=
  q.items.findIdx? (· == target)

end Depot.Queue
