/-!
# Cutting lists at a separator

* `splitOn sep xs` is the list of runs of `xs` between the occurrences of `sep`; it is never empty,
  and an empty run stands wherever two separators meet or one stands at an end.
* `joinWith sep` puts the runs together again (`joinWith_splitOn`), and cutting a join of runs
  without a separator gives the runs back (`splitOn_joinWith`).
* `dropStart? start xs` is the rest of `xs` after `start`, if `xs` begins with it.
-/

namespace Depot.Text

variable {α : Type}

/-- The runs of `xs` between the occurrences of `sep`. -/
def splitOn [DecidableEq α] (sep : α) : List α → List (List α)
  | [] => [[]]
  | x :: xs =>
    if x = sep then [] :: splitOn sep xs
    else
      match splitOn sep xs with
      | [] => [[x]]
      | run :: runs => (x :: run) :: runs

/-- The runs in order, with one `sep` between each two. -/
def joinWith (sep : α) : List (List α) → List α
  | [] => []
  | [run] => run
  | run :: next :: runs => run ++ sep :: joinWith sep (next :: runs)

/-- What follows `start` in `xs`, if `xs` begins with `start`. -/
def dropStart? [DecidableEq α] : List α → List α → Option (List α)
  | [], xs => some xs
  | _ :: _, [] => none
  | s :: start, x :: xs => if s = x then dropStart? start xs else none

theorem joinWith_cons_cons (sep x : α) (run : List α) (runs : List (List α)) :
    joinWith sep ((x :: run) :: runs) = x :: joinWith sep (run :: runs) := by
  cases runs <;> simp [joinWith]

theorem joinWith_nil_cons (sep : α) {runs : List (List α)} (h : runs ≠ []) :
    joinWith sep ([] :: runs) = sep :: joinWith sep runs := by
  cases runs with
  | nil => exact absurd rfl h
  | cons run runs => simp [joinWith]

section Decidable

variable [DecidableEq α]

theorem splitOn_ne_nil (sep : α) (xs : List α) : splitOn sep xs ≠ [] := by
  cases xs with
  | nil => simp [splitOn]
  | cons x xs => unfold splitOn; split <;> (try split) <;> simp

/-- Joining the runs gives the list back. -/
theorem joinWith_splitOn (sep : α) (xs : List α) : joinWith sep (splitOn sep xs) = xs := by
  induction xs with
  | nil => rfl
  | cons x xs ih =>
    unfold splitOn
    split
    · next h => rw [joinWith_nil_cons sep (splitOn_ne_nil sep xs), ih, h]
    · split
      · next h => exact absurd h (splitOn_ne_nil sep xs)
      · next run runs h => rw [joinWith_cons_cons, ← h, ih]

theorem splitOn_append (sep : α) {run : List α} (h : sep ∉ run) (xs : List α) :
    splitOn sep (run ++ sep :: xs) = run :: splitOn sep xs := by
  induction run with
  | nil => simp [splitOn]
  | cons x run ih =>
    rw [List.mem_cons, not_or] at h
    simp [splitOn, ih h.2, Ne.symm h.1]

theorem splitOn_of_not_mem (sep : α) {run : List α} (h : sep ∉ run) :
    splitOn sep run = [run] := by
  induction run with
  | nil => rfl
  | cons x run ih =>
    rw [List.mem_cons, not_or] at h
    simp [splitOn, ih h.2, Ne.symm h.1]

/-- Cutting a join of runs without a separator gives the runs back. -/
theorem splitOn_joinWith (sep : α) {runs : List (List α)} (hne : runs ≠ [])
    (h : ∀ run ∈ runs, sep ∉ run) : splitOn sep (joinWith sep runs) = runs := by
  induction runs with
  | nil => exact absurd rfl hne
  | cons run runs ih =>
    cases runs with
    | nil => exact splitOn_of_not_mem sep (h run (by simp))
    | cons next runs =>
      rw [joinWith, splitOn_append sep (h run (by simp)),
        ih (by simp) fun r hr => h r (List.mem_cons_of_mem _ hr)]

/-- No run holds the separator. -/
theorem not_mem_of_mem_splitOn (sep : α) {xs run : List α} (h : run ∈ splitOn sep xs) :
    sep ∉ run := by
  induction xs generalizing run with
  | nil => simp_all [splitOn]
  | cons x xs ih =>
    unfold splitOn at h
    split at h
    · rcases List.mem_cons.mp h with rfl | h
      · exact List.not_mem_nil
      · exact ih h
    · next hx =>
      split at h
      · next hs => exact absurd hs (splitOn_ne_nil sep xs)
      · next first runs hs =>
        rcases List.mem_cons.mp h with rfl | h
        · rw [List.mem_cons, not_or]
          exact ⟨Ne.symm hx, ih (by simp [hs])⟩
        · exact ih (by simp [hs, h])

theorem dropStart?_eq_some_iff {start xs rest : List α} :
    dropStart? start xs = some rest ↔ xs = start ++ rest := by
  induction start generalizing xs with
  | nil => simp [dropStart?, eq_comm]
  | cons s start ih =>
    cases xs with
    | nil => simp [dropStart?]
    | cons x xs =>
      by_cases h : s = x
      · simp [dropStart?, h, ih]
      · simp [dropStart?, h, Ne.symm h]

end Decidable

end Depot.Text
