import Depot.Proofs.Queue.Exchange
import Mathlib.Data.List.Induction
import Mathlib.Data.List.Perm.Basic

/-!
# Moving and removing a value by name

A value is named by any equality: it need not be reflexive, symmetric or transitive, so a value may
be equal to nothing, itself included. What is meant is the first value that is equal to the one
named, at the index `i` with `First xs target i`; its neighbours may be equal to it as well.

A value moves by exchanges with its neighbours. The list is followed as what stands before the
value, the value, and what stands behind it: one exchange takes one value from the one side to the
other (`exchange_neighbours`), so at the end all stand on one side, in the order that they had
(`rotateToFront_append`, `rotateToBack_append`).

Results:
* `rotateToFront_eq`, `rotateToBack_eq`: the value and the others, in either order.
* `moveToFront_relocates`, `moveToBack_relocates`: the four outcomes of a move.
* `relocation_laws`: **when a move or a removal fails and with which error, and the list that it
  leaves otherwise.**

These are `remove`, `move_to_front` and `move_to_back`, by `position`.
-/

namespace Depot.Queue

variable {α : Type} {xs : List α} {v : α} {i : Nat}

/-! ## Neighbours that are exchanged -/

theorem exchange_neighbours (before after : List α) (u v : α) :
    exchange (before ++ u :: v :: after) before.length (before.length + 1)
      = before ++ v :: u :: after := by
  have hu : (before ++ u :: v :: after)[before.length]? = some u := by simp
  have hv : (before ++ u :: v :: after)[before.length + 1]? = some v := by simp
  rw [exchange_of_getElem? hu hv]
  simp

/-- What stands before a value stands behind it, once the value has gone to the front. -/
theorem rotateToFront_append (before after : List α) (v : α) :
    rotateToFront (before ++ v :: after) before.length = v :: (before ++ after) := by
  -- from the end of what stands before: the nearest neighbour is passed first
  induction before using List.reverseRecOn generalizing after with
  | nil => rfl
  | append_singleton before u ih =>
    have hlist : before ++ [u] ++ v :: after = before ++ u :: v :: after := by simp
    have hindex : (before ++ [u]).length = before.length + 1 := by simp
    rw [hlist, hindex]
    calc rotateToFront (before ++ u :: v :: after) (before.length + 1)
        = rotateToFront (exchange (before ++ u :: v :: after) (before.length + 1) before.length)
            before.length := rfl
      _ = rotateToFront (before ++ v :: u :: after) before.length := by
          rw [exchange_comm, exchange_neighbours]
      _ = v :: (before ++ u :: after) := ih (u :: after)
      _ = v :: (before ++ [u] ++ after) := by simp

/-- What stands behind a value stands before it, once the value has gone to the back. -/
theorem rotateToBack_append (before after : List α) (v : α) :
    rotateToBack (before ++ v :: after) before.length after.length = before ++ after ++ [v] := by
  induction after generalizing before with
  | nil => simp [rotateToBack]
  | cons u after ih =>
    have hlist : before ++ u :: v :: after = before ++ [u] ++ v :: after := by simp
    have hindex : before.length + 1 = (before ++ [u]).length := by simp
    calc rotateToBack (before ++ v :: u :: after) before.length (after.length + 1)
        = rotateToBack (exchange (before ++ v :: u :: after) before.length (before.length + 1))
            (before.length + 1) after.length := rfl
      _ = rotateToBack (before ++ [u] ++ v :: after) (before ++ [u]).length after.length := by
          rw [exchange_neighbours, hlist, hindex]
      _ = before ++ [u] ++ after ++ [v] := ih (before ++ [u])
      _ = before ++ u :: after ++ [v] := by simp

/-- A list around one of its values. -/
theorem eq_take_append_drop (hv : xs[i]? = some v) :
    xs = xs.take i ++ v :: xs.drop (i + 1) ∧ (xs.take i).length = i := by
  obtain ⟨hi, rfl⟩ := List.getElem?_eq_some_iff.mp hv
  exact ⟨by rw [← List.drop_eq_getElem_cons hi, List.take_append_drop],
    List.length_take_of_le (Nat.le_of_lt hi)⟩

/-- **A value that is moved to the front stands before all others, which keep their order.** -/
theorem rotateToFront_eq (hv : xs[i]? = some v) : rotateToFront xs i = v :: xs.eraseIdx i := by
  obtain ⟨hsplit, hlen⟩ := eq_take_append_drop hv
  have h := rotateToFront_append (xs.take i) (xs.drop (i + 1)) v
  rwa [← hsplit, hlen, ← List.eraseIdx_eq_take_drop_succ] at h

/-- **A value that is moved to the back stands behind all others, which keep their order.** -/
theorem rotateToBack_eq (hv : xs[i]? = some v) :
    rotateToBack xs i (xs.length - 1 - i) = xs.eraseIdx i ++ [v] := by
  obtain ⟨hsplit, hlen⟩ := eq_take_append_drop hv
  have h := rotateToBack_append (xs.take i) (xs.drop (i + 1)) v
  have hsteps : (xs.drop (i + 1)).length = xs.length - 1 - i := by
    rw [List.length_drop]
    omega
  rwa [← hsplit, hlen, hsteps, ← List.eraseIdx_eq_take_drop_succ] at h

/-! ## Outcomes of a move -/

variable [BEq α] {q : Queue α} {target : α} {place : Nat} {inPlace : QueueError}
  {arranged : α → List α → List α} {r r' : Except QueueError Unit × Queue α}

theorem indexOf?_eq_none_iff : q.indexOf? target = none ↔ ∀ i, ¬ First q.items target i := by
  simp only [← indexOf?_eq_some_iff, Option.eq_none_iff_forall_ne_some, Ne]

/-- What comes of moving the value that is named to a place: the value and the others are arranged,
unless the value stands there already. -/
inductive Relocates (q : Queue α) (target : α) (place : Nat) (inPlace : QueueError)
    (arranged : α → List α → List α) : Except QueueError Unit × Queue α → Prop
  | empty (hi : q.items = []) : Relocates q target place inPlace arranged (.error .empty, q)
  | notFound (hi : q.items ≠ []) (hn : ∀ i, ¬ First q.items target i) :
      Relocates q target place inPlace arranged (.error .notFound, q)
  | inPlace (hf : First q.items target place) :
      Relocates q target place inPlace arranged (.error inPlace, q)
  | moved {i : Nat} {v : α} (hf : First q.items target i) (hp : i ≠ place)
      (hv : q.items[i]? = some v) :
      Relocates q target place inPlace arranged
        (.ok (), { q with items := arranged v (q.items.eraseIdx i) })

theorem moveToFront_relocates (q : Queue α) (target : α) :
    Relocates q target 0 .atFront (fun v others => v :: others) (q.moveToFront target) := by
  unfold moveToFront
  split_ifs with he
  · exact .empty (List.isEmpty_iff.mp he)
  · split
    · next hn =>
      exact .notFound (fun hi => he (List.isEmpty_iff.mpr hi)) (indexOf?_eq_none_iff.mp hn)
    · next hz => exact .inPlace (indexOf?_eq_some_iff.mp hz)
    · next i hz hi =>
      have hf := indexOf?_eq_some_iff.mp hi
      obtain ⟨v, hv, -⟩ := hf.equal
      rw [rotateToFront_eq hv]
      exact .moved hf hz hv

theorem moveToBack_relocates (q : Queue α) (target : α) :
    Relocates q target (q.items.length - 1) .atBack (fun v others => others ++ [v])
      (q.moveToBack target) := by
  unfold moveToBack
  split_ifs with he
  · exact .empty (List.isEmpty_iff.mp he)
  · split
    · next hn =>
      exact .notFound (fun hi => he (List.isEmpty_iff.mpr hi)) (indexOf?_eq_none_iff.mp hn)
    · next i hi =>
      have hf := indexOf?_eq_some_iff.mp hi
      obtain ⟨v, hv, -⟩ := hf.equal
      have hlt := hf.lt_length
      unfold size
      split_ifs with hl
      · exact .inPlace (by rwa [← hl, Nat.add_sub_cancel])
      · rw [rotateToBack_eq hv]
        exact .moved hf (by omega) hv

/-! ## Laws of moving and removing -/

/-- When a move fails and with which error, and what it leaves: the queue as it was, or the same
values with the one that is named at its place and the others in their order. -/
structure MoveLaws (q : Queue α) (target : α) (place : Nat) (inPlace : QueueError)
    (arranged : α → List α → List α) (r : Except QueueError Unit × Queue α) : Prop where
  empty_iff : r.1 = .error .empty ↔ q.items = []
  notFound_iff : r.1 = .error .notFound ↔ q.items ≠ [] ∧ ∀ i, ¬ First q.items target i
  inPlace_iff : r.1 = .error inPlace ↔ First q.items target place
  ok_iff : r.1 = .ok () ↔ ∃ i, First q.items target i ∧ i ≠ place
  unchanged : ∀ e, r.1 = .error e → r.2 = q
  arranged : ∀ i v, First q.items target i → i ≠ place → q.items[i]? = some v →
    r.2 = { q with items := arranged v (q.items.eraseIdx i) }
  perm : r.2.items.Perm q.items

theorem First.items_ne_nil (h : First xs target i) : xs ≠ [] := by
  rintro rfl
  exact absurd h.lt_length (Nat.not_lt_zero i)

/-- A move has one outcome. -/
theorem Relocates.eq (h : Relocates q target place inPlace arranged r)
    (h' : Relocates q target place inPlace arranged r') : r = r' := by
  cases h <;> cases h' <;> grind [First.items_ne_nil, First.inj]

theorem Relocates.laws (h : Relocates q target place inPlace arranged r)
    (he : inPlace ≠ .empty) (hn : inPlace ≠ .notFound)
    (hperm : ∀ v others, (arranged v others).Perm (v :: others)) :
    MoveLaws q target place inPlace arranged r where
  empty_iff := by
    refine ⟨fun hr => ?_, fun hi => by rw [h.eq (.empty hi)]⟩
    cases h <;> simp_all
  notFound_iff := by
    refine ⟨fun hr => ?_, fun ⟨hi, hnone⟩ => by rw [h.eq (.notFound hi hnone)]⟩
    cases h <;> simp_all
  inPlace_iff := by
    refine ⟨fun hr => ?_, fun hf => by rw [h.eq (.inPlace hf)]⟩
    cases h <;> simp_all
  ok_iff := by
    refine ⟨fun hr => ?_, fun ⟨i, hf, hp⟩ => ?_⟩
    · cases h with
      | moved hf hp hv => exact ⟨_, hf, hp⟩
      | _ => exact absurd hr (by simp)
    · obtain ⟨v, hv, -⟩ := hf.equal
      rw [h.eq (.moved hf hp hv)]
  unchanged := by
    intro e hr
    cases h with
    | moved => exact absurd hr (by simp)
    | _ => rfl
  arranged := fun i v hf hp hv => by rw [h.eq (.moved hf hp hv)]
  perm := by
    cases h with
    | moved hf hp hv =>
      obtain ⟨hi, rfl⟩ := List.getElem?_eq_some_iff.mp hv
      exact (hperm _ _).trans (List.getElem_cons_eraseIdx_perm hi)
    | _ => exact List.Perm.refl _

/-- When a removal fails, and what it leaves: the queue as it was, or all values but the one that is
named, in their order. -/
structure RemovalLaws (q : Queue α) (target : α) (r : Except QueueError Unit × Queue α) :
    Prop where
  notFound_iff : r.1 = .error .notFound ↔ ∀ i, ¬ First q.items target i
  ok_iff : r.1 = .ok () ↔ ∃ i, First q.items target i
  unchanged : ∀ e, r.1 = .error e → r.2 = q
  erased : ∀ i, First q.items target i → r.2 = { q with items := q.items.eraseIdx i }
  perm : ∀ i v, First q.items target i → q.items[i]? = some v → q.items.Perm (v :: r.2.items)

theorem remove_of_first (hf : First q.items target i) :
    q.remove target = (.ok (), { q with items := q.items.eraseIdx i }) := by
  unfold remove
  rw [indexOf?_eq_some_iff.mpr hf]

theorem remove_of_missing (hn : ∀ i, ¬ First q.items target i) :
    q.remove target = (.error .notFound, q) := by
  unfold remove
  rw [indexOf?_eq_none_iff.mpr hn]

theorem removalLaws (q : Queue α) (target : α) : RemovalLaws q target (q.remove target) where
  notFound_iff := by
    constructor
    · intro hr i hf
      rw [remove_of_first hf] at hr
      exact absurd hr (by simp)
    · intro hn
      rw [remove_of_missing hn]
  ok_iff := by
    constructor
    · intro hr
      by_contra h
      rw [remove_of_missing (not_exists.mp h)] at hr
      exact absurd hr (by simp)
    · rintro ⟨i, hf⟩
      rw [remove_of_first hf]
  unchanged := by
    intro e hr
    by_cases h : ∃ i, First q.items target i
    · obtain ⟨i, hf⟩ := h
      rw [remove_of_first hf] at hr
      exact absurd hr (by simp)
    · rw [remove_of_missing (not_exists.mp h)]
  erased := by
    intro i hf
    rw [remove_of_first hf]
  perm := by
    intro i v hf hv
    obtain ⟨hi, rfl⟩ := List.getElem?_eq_some_iff.mp hv
    rw [remove_of_first hf]
    exact (List.getElem_cons_eraseIdx_perm hi).symm

/-- **The laws of moving and removing a value by name**, for any equality. A move is refused if
there is no value at all, else if none is equal to the one named, else if the first such value
stands at its place; a removal only if none is equal. What is refused leaves the queue as it was.
What succeeds puts the value that was found before or behind the others, or leaves it out, and
changes nothing else; the others keep their order. -/
theorem relocation_laws (q : Queue α) (target : α) :
    MoveLaws q target 0 .atFront (fun v others => v :: others) (q.moveToFront target) ∧
      MoveLaws q target (q.items.length - 1) .atBack (fun v others => others ++ [v])
        (q.moveToBack target) ∧
      RemovalLaws q target (q.remove target) :=
  ⟨(moveToFront_relocates q target).laws (by simp) (by simp) fun _ _ => List.Perm.refl _,
    (moveToBack_relocates q target).laws (by simp) (by simp) fun v others =>
      List.perm_append_singleton v others,
    removalLaws q target⟩

/-- A level, which counts as equal to those above it only: not to itself, and not the other way
round. -/
structure Level where
  height : Nat

instance : BEq Level := ⟨fun a b => decide (b.height < a.height)⟩

/-- Two levels above the second one, which stand side by side. -/
def fourLevels : Queue Level :=
  ⟨[⟨1⟩, ⟨3⟩, ⟨4⟩, ⟨2⟩], [], [], 0, 0⟩

/-- The first level above is moved, not the next one that is above as well, and a level that no
other is above is not found, though it is there. -/
theorem relocation_laws_fourLevels :
    First fourLevels.items ⟨2⟩ 1 ∧ fourLevels.items[1]? = some ⟨3⟩ ∧
      (fourLevels.moveToFront ⟨2⟩).2.items = [⟨3⟩, ⟨1⟩, ⟨4⟩, ⟨2⟩] ∧
      (fourLevels.moveToBack ⟨2⟩).2.items = [⟨1⟩, ⟨4⟩, ⟨2⟩, ⟨3⟩] ∧
      (fourLevels.remove ⟨2⟩).2.items = [⟨1⟩, ⟨4⟩, ⟨2⟩] ∧
      (fourLevels.remove ⟨4⟩).1 = .error .notFound := by
  have hf : First fourLevels.items ⟨2⟩ 1 := indexOf?_eq_some_iff.mp (by decide)
  obtain ⟨hfront, hback, hremove⟩ := relocation_laws fourLevels ⟨2⟩
  refine ⟨hf, rfl, ?_, ?_, ?_, ?_⟩
  · rw [hfront.arranged 1 ⟨3⟩ hf (by simp) rfl]
    rfl
  · rw [hback.arranged 1 ⟨3⟩ hf (by simp [fourLevels]) rfl]
    rfl
  · rw [hremove.erased 1 hf]
    rfl
  · exact (relocation_laws fourLevels ⟨4⟩).2.2.notFound_iff.mpr
      (indexOf?_eq_none_iff.mp (by decide))

end Depot.Queue
