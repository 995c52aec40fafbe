import Depot.Queue.Reorder
import Mathlib.Tactic.ByContra
import Mathlib.Tactic.SplitIfs

/-!
# Exchanging two values

`swap` exchanges the first value that is equal to one of two with the first that is equal to the
other. Equality is an equivalence here (`EquivBEq`), and values may repeat.

What is found first can change by the exchange itself. Let the value found for `a` stand before the
one found for `b`. Afterwards the one found for `b` stands first and is still the first of its kind
(`first_exchange_later`). The one found for `a` has gone behind, past every value that is equal to
it and stood between the two; if there is one, it is that one which is found for `a` now
(`first_exchange_earlier`). `Uncrossed` says that there is none.

Results:
* `exchange_exchange`: exchanging what stands at two indices twice restores a list.
* `swap_comm`: the order in which two values are named makes no difference.
* `swap_swap_iff`: a second exchange succeeds where the first did, and it restores the queue exactly
  if no value was crossed.
* `swap_laws`: these for any two values, and that a failed exchange leaves the queue as it was.

The specification (section 8) says that a second exchange of the same two values restores the queue;
it does for values that differ from each other.
-/

namespace Depot.Queue

variable {α : Type} {q : Queue α} {xs : List α} {a b v : α} {i j k m : Nat}

/-! ## What stands at two indices -/

theorem exchange_of_getElem? (hi : xs[i]? = some a) (hj : xs[j]? = some b) :
    exchange xs i j = (xs.set i b).set j a := by
  unfold exchange
  rw [hi, hj]

theorem exchange_comm (xs : List α) (i j : Nat) : exchange xs i j = exchange xs j i := by
  by_cases hij : i = j
  · rw [hij]
  cases hi : xs[i]? with
  | none => simp [exchange, hi]
  | some a =>
    cases hj : xs[j]? with
    | none => simp [exchange, hi, hj]
    | some b =>
      rw [exchange_of_getElem? hi hj, exchange_of_getElem? hj hi, List.set_comm b a hij]

theorem getElem?_exchange (hi : i < xs.length) (hj : j < xs.length) (k : Nat) :
    (exchange xs i j)[k]? = if k = i then xs[j]? else if k = j then xs[i]? else xs[k]? := by
  rw [exchange_of_getElem? (List.getElem?_eq_getElem hi) (List.getElem?_eq_getElem hj),
    List.getElem?_set, List.getElem?_set, List.length_set]
  by_cases hkj : k = j
  · subst hkj
    by_cases hki : k = i
    · subst hki
      simp [hi]
    · simp [hi, hj, hki]
  · by_cases hki : k = i
    · subst hki
      simp [Ne.symm hkj, hi, hj]
    · simp [Ne.symm hki, Ne.symm hkj, hki, hkj]

theorem length_exchange (xs : List α) (i j : Nat) : (exchange xs i j).length = xs.length := by
  unfold exchange
  split
  · rw [List.length_set, List.length_set]
  · rfl

/-- **Exchanging twice restores a list.** -/
theorem exchange_exchange (hi : i < xs.length) (hj : j < xs.length) :
    exchange (exchange xs i j) i j = xs := by
  refine List.ext_getElem? fun k => ?_
  have hi' : i < (exchange xs i j).length := (length_exchange xs i j).symm ▸ hi
  have hj' : j < (exchange xs i j).length := (length_exchange xs i j).symm ▸ hj
  simp only [getElem?_exchange hi' hj', getElem?_exchange hi hj]
  grind

theorem setItems_eq_iff (q : Queue α) (xs ys : List α) :
    ({ ({ q with items := xs } : Queue α) with items := ys } : Queue α) = q ↔ ys = q.items :=
  ⟨fun h => congrArg Queue.items h, fun h => h ▸ rfl⟩

/-! ## What is found first -/

section First

variable [BEq α]

/-- At an index stands the first value of a list that is equal to `a`. -/
structure First (xs : List α) (a : α) (i : Nat) : Prop where
  equal : ∃ v, xs[i]? = some v ∧ (v == a) = true
  none_before : ∀ k < i, ∀ v, xs[k]? = some v → (v == a) = false

theorem indexOf?_eq_some_iff : q.indexOf? a = some i ↔ First q.items a i := by
  unfold indexOf?
  rw [List.findIdx?_eq_some_iff_getElem]
  constructor
  · rintro ⟨hi, he, hn⟩
    refine ⟨⟨_, List.getElem?_eq_getElem hi, he⟩, fun k hk v hv => ?_⟩
    obtain ⟨hlt, rfl⟩ := List.getElem?_eq_some_iff.mp hv
    exact Bool.eq_false_iff.mpr (hn k hk)
  · rintro ⟨⟨v, hv, he⟩, hn⟩
    obtain ⟨hlt, rfl⟩ := List.getElem?_eq_some_iff.mp hv
    exact ⟨hlt, he, fun k hk => Bool.eq_false_iff.mp (hn k hk _ (List.getElem?_eq_getElem _))⟩

theorem First.lt_length (h : First xs a i) : i < xs.length := by
  obtain ⟨v, hv, -⟩ := h.equal
  exact (List.getElem?_eq_some_iff.mp hv).1

theorem First.inj (h : First xs a i) (h' : First xs a j) : i = j := by
  obtain ⟨v, hv, he⟩ := h.equal
  obtain ⟨w, hw, he'⟩ := h'.equal
  rcases Nat.lt_trichotomy i j with hlt | rfl | hlt
  · exact absurd (he.symm.trans (h'.none_before i hlt v hv)) (by simp)
  · rfl
  · exact absurd (he'.symm.trans (h.none_before j hlt w hw)) (by simp)

/-- Where a value stands that is equal to `a`, or before, the first one stands. -/
theorem exists_first (hv : xs[k]? = some v) (he : (v == a) = true) :
    ∃ i ≤ k, First xs a i := by
  induction k using Nat.strongRecOn generalizing v with
  | ind k ih =>
    by_cases h : ∃ l < k, ∃ w, xs[l]? = some w ∧ (w == a) = true
    · obtain ⟨l, hl, w, hw, he'⟩ := h
      obtain ⟨i, hi, hfirst⟩ := ih l hl hw he'
      exact ⟨i, Nat.le_trans hi (Nat.le_of_lt hl), hfirst⟩
    · exact ⟨k, Nat.le_refl k, ⟨v, hv, he⟩, fun l hl w hw =>
        Bool.eq_false_iff.mpr fun he' => h ⟨l, hl, w, hw, he'⟩⟩

/-- The value that is found behind the other is found where the other was, once they are
exchanged. -/
theorem first_exchange_later (ha : First xs a i) (hb : First xs b j) (hij : i < j) :
    First (exchange xs i j) b i := by
  obtain ⟨v, hv, he⟩ := hb.equal
  refine ⟨⟨v, ?_, he⟩, fun k hk w hw => ?_⟩
  · rw [getElem?_exchange ha.lt_length hb.lt_length, if_pos rfl, hv]
  · rw [getElem?_exchange ha.lt_length hb.lt_length, if_neg (Nat.ne_of_lt hk),
      if_neg (Nat.ne_of_lt (Nat.lt_trans hk hij))] at hw
    exact hb.none_before k (Nat.lt_trans hk hij) w hw

/-! ## Exchanging values by name -/

/-- No value that is equal to one of two stands between those that are found for them. -/
def Uncrossed (xs : List α) (a b : α) : Prop :=
  ∀ i j, First xs a i → First xs b j → ∀ k v, min i j < k → k < max i j → xs[k]? = some v →
    (v == a) = false ∧ (v == b) = false

theorem Uncrossed.symm (h : Uncrossed xs a b) : Uncrossed xs b a := by
  intro j i hb ha k v hlo hhi hv
  rw [Nat.min_comm] at hlo
  rw [Nat.max_comm] at hhi
  exact (h i j ha hb k v hlo hhi hv).symm

theorem swap_of_first (ha : First q.items a i) (hb : First q.items b j) (hij : i ≠ j) :
    q.swap a b = (.ok (), { q with items := exchange q.items i j }) := by
  have hne : ¬ q.items.isEmpty = true := fun he => by
    have := ha.lt_length
    rw [List.isEmpty_iff.mp he] at this
    exact absurd this (Nat.not_lt_zero i)
  unfold swap
  simp only [if_neg hne, indexOf?_eq_some_iff.mpr ha, indexOf?_eq_some_iff.mpr hb, if_neg hij]

/-- Values are exchanged just if they are found at different indices. -/
theorem swap_eq_ok_iff : (q.swap a b).1 = .ok () ↔
    ∃ i j, First q.items a i ∧ First q.items b j ∧ i ≠ j := by
  constructor
  · intro h
    unfold swap at h
    split_ifs at h with he
    split at h
    · next i j hi hj =>
      split_ifs at h with hij
      exact ⟨i, j, indexOf?_eq_some_iff.mp hi, indexOf?_eq_some_iff.mp hj, hij⟩
    · exact absurd h (by simp)
  · rintro ⟨i, j, ha, hb, hij⟩
    rw [swap_of_first ha hb hij]

/-- **The order in which two values are named makes no difference.** -/
theorem swap_comm (q : Queue α) (a b : α) : q.swap a b = q.swap b a := by
  unfold swap
  cases q.indexOf? a with
  | none => cases q.indexOf? b <;> rfl
  | some i =>
    cases q.indexOf? b with
    | none => rfl
    | some j =>
      by_cases hij : i = j
      · simp only [hij]
      · simp only [if_neg hij, if_neg (Ne.symm hij), exchange_comm q.items i j]

theorem swap_of_error {e : QueueError} (h : (q.swap a b).1 = .error e) : (q.swap a b).2 = q := by
  unfold swap at h ⊢
  split_ifs with he
  · rfl
  · rw [if_neg he] at h
    split
    · next hi hj =>
      split_ifs with hij
      · rfl
      · simp [hi, hj, hij] at h
    · rfl

/-! ## Exchanging twice -/

/-- The first value went to where the other was just if no value was crossed. -/
theorem eq_iff_uncrossed (ha : First xs a i) (hb : First xs b j) (hij : i < j)
    (hm : First (exchange xs i j) a m) (him : i < m) (hmj : m ≤ j) :
    m = j ↔ Uncrossed xs a b := by
  have hget : ∀ k, i < k → k < j → (exchange xs i j)[k]? = xs[k]? := fun k hik hkj => by
    rw [getElem?_exchange ha.lt_length hb.lt_length, if_neg (Nat.ne_of_gt hik),
      if_neg (Nat.ne_of_lt hkj)]
  constructor
  · rintro rfl i' j' ha' hb' k v hlo hhi hv
    obtain rfl := ha'.inj ha
    obtain rfl := hb'.inj hb
    have hik : i' < k := by omega
    have hkj : k < j' := by omega
    exact ⟨hm.none_before k hkj v ((hget k hik hkj).trans hv), hb.none_before k hkj v hv⟩
  · intro h
    by_contra hne
    have hlt : m < j := Nat.lt_of_le_of_ne hmj hne
    obtain ⟨v, hv, hva⟩ := hm.equal
    have hfalse := (h i j ha hb m v (by omega) (by omega) ((hget m him hlt).symm.trans hv)).1
    exact absurd (hva.symm.trans hfalse) (by simp)

variable [EquivBEq α]

/-- Equal values are found at one index. -/
theorem First.congr (h : First xs a i) (hab : (a == b) = true) : First xs b i := by
  obtain ⟨v, hv, he⟩ := h.equal
  refine ⟨⟨v, hv, BEq.trans he hab⟩, fun k hk w hw => ?_⟩
  rw [← BEq.congr_right hab]
  exact h.none_before k hk w hw

/-- What is equal to one of two values that are found at different indices is not equal to the
other. -/
theorem First.not_equal (ha : First xs a i) (hb : First xs b j) (hij : i ≠ j)
    (hv : (v == b) = true) : (v == a) = false :=
  Bool.eq_false_iff.mpr fun he => hij ((ha.congr (BEq.trans (BEq.symm he) hv)).inj hb)

/-- The value that is found before the other is found behind where it was, once they are exchanged,
and at the latest where the other was. -/
theorem first_exchange_earlier (ha : First xs a i) (hb : First xs b j) (hij : i < j) :
    ∃ m, First (exchange xs i j) a m ∧ i < m ∧ m ≤ j := by
  have hget := getElem?_exchange ha.lt_length hb.lt_length
  obtain ⟨v, hv, he⟩ := ha.equal
  obtain ⟨m, hm, hfirst⟩ := exists_first (k := j)
    (by rw [hget, if_neg (Nat.ne_of_gt hij), if_pos rfl, hv]) he
  refine ⟨m, hfirst, Nat.lt_of_not_le fun hmi => ?_, hm⟩
  obtain ⟨w, hw, hwa⟩ := hfirst.equal
  rw [hget, if_neg (by omega : m ≠ j)] at hw
  rcases Nat.lt_or_eq_of_le hmi with hlt | rfl
  · rw [if_neg (Nat.ne_of_lt hlt)] at hw
    exact absurd (hwa.symm.trans (ha.none_before m hlt w hw)) (by simp)
  · rw [if_pos rfl] at hw
    obtain ⟨u, hu, hub⟩ := hb.equal
    obtain rfl := Option.some.inj (hu.symm.trans hw)
    exact absurd (hwa.symm.trans (ha.not_equal hb (Nat.ne_of_lt hij) hub)) (by simp)

/-- Exchanged again, the values stand as before just if the first one went to where the other
was. -/
theorem exchange_exchange_eq_iff (ha : First xs a i) (hb : First xs b j) (hij : i < j)
    (hmj : m ≤ j) : exchange (exchange xs i j) i m = xs ↔ m = j := by
  constructor
  · intro h
    by_contra hne
    -- the value found for `b` stood last and is not there any more
    have hlast : xs[i]? = xs[j]? := by
      have hj := congrArg (·[j]?) h
      have hm : m < (exchange xs i j).length :=
        (length_exchange xs i j).symm ▸ Nat.lt_of_le_of_lt hmj hb.lt_length
      have hi : i < (exchange xs i j).length := (length_exchange xs i j).symm ▸ ha.lt_length
      simp only [getElem?_exchange hi hm, getElem?_exchange ha.lt_length hb.lt_length] at hj
      rwa [if_neg (Nat.ne_of_gt hij), if_neg (Ne.symm hne), if_neg (Nat.ne_of_gt hij),
        if_pos trivial] at hj
    obtain ⟨v, hv, hva⟩ := ha.equal
    obtain ⟨w, hw, hwb⟩ := hb.equal
    obtain rfl := Option.some.inj (hv.symm.trans (hlast.trans hw))
    exact absurd (hva.symm.trans (ha.not_equal hb (Nat.ne_of_lt hij) hwb)) (by simp)
  · rintro rfl
    exact exchange_exchange ha.lt_length hb.lt_length

theorem swap_swap_of_lt (ha : First q.items a i) (hb : First q.items b j) (hij : i < j) :
    ((q.swap a b).2.swap a b).1 = .ok () ∧
      (((q.swap a b).2.swap a b).2 = q ↔ Uncrossed q.items a b) := by
  obtain ⟨m, hm, him, hmj⟩ := first_exchange_earlier ha hb hij
  rw [swap_of_first ha hb (Nat.ne_of_lt hij),
    swap_of_first (q := { q with items := exchange q.items i j }) hm
      (first_exchange_later ha hb hij) (Nat.ne_of_gt him)]
  refine ⟨rfl, ?_⟩
  rw [setItems_eq_iff, exchange_comm _ m i, exchange_exchange_eq_iff ha hb hij hmj]
  exact eq_iff_uncrossed ha hb hij hm him hmj

/-- **A second exchange succeeds where the first did, and restores the queue exactly if no value was
crossed.** -/
theorem swap_swap_iff (h : (q.swap a b).1 = .ok ()) :
    ((q.swap a b).2.swap a b).1 = .ok () ∧
      (((q.swap a b).2.swap a b).2 = q ↔ Uncrossed q.items a b) := by
  obtain ⟨i, j, ha, hb, hij⟩ := swap_eq_ok_iff.mp h
  rcases Nat.lt_or_gt_of_ne hij with hlt | hlt
  · exact swap_swap_of_lt ha hb hlt
  · have := swap_swap_of_lt hb ha hlt
    rw [swap_comm q a b, swap_comm _ a b]
    exact this.imp_right fun hu => hu.trans ⟨Uncrossed.symm, Uncrossed.symm⟩

/-- **The laws of exchanging two values.** The order in which they are named makes no difference; a
failed exchange leaves the queue as it was; and after one that succeeds a second one succeeds, which
restores the queue exactly if no value equal to one of the two stood between them. -/
theorem swap_laws (q : Queue α) (a b : α) :
    q.swap a b = q.swap b a ∧
      (∀ e, (q.swap a b).1 = .error e → (q.swap a b).2 = q) ∧
      ((q.swap a b).1 = .ok () → ((q.swap a b).2.swap a b).1 = .ok () ∧
        (((q.swap a b).2.swap a b).2 = q ↔ Uncrossed q.items a b)) :=
  ⟨swap_comm q a b, fun _ => swap_of_error, swap_swap_iff⟩

end First

/-- A card, which counts as equal to all cards of its rank. -/
structure Card where
  rank : Nat
  suit : Nat
  deriving DecidableEq

instance : BEq Card := ⟨fun a b => a.rank == b.rank⟩

theorem Card.beq_iff {c d : Card} : (c == d) = true ↔ c.rank = d.rank :=
  beq_iff_eq (a := c.rank)

instance : EquivBEq Card where
  rfl := Card.beq_iff.mpr rfl
  symm h := Card.beq_iff.mpr (Card.beq_iff.mp h).symm
  trans h h' := Card.beq_iff.mpr ((Card.beq_iff.mp h).trans (Card.beq_iff.mp h'))

/-- Two cards of one rank with another one between them. -/
def pairApart : Queue Card :=
  ⟨[⟨1, 0⟩, ⟨2, 0⟩, ⟨1, 1⟩], [], [], 0, 0⟩

/-- The second card of a rank stands behind both that are exchanged. -/
theorem swap_laws_pairApart :
    EquivBEq Card ∧ (pairApart.swap ⟨1, 1⟩ ⟨2, 1⟩).1 = .ok () ∧
      ((pairApart.swap ⟨1, 1⟩ ⟨2, 1⟩).2.swap ⟨1, 1⟩ ⟨2, 1⟩).2 = pairApart := by
  have hok : (pairApart.swap ⟨1, 1⟩ ⟨2, 1⟩).1 = .ok () := rfl
  refine ⟨inferInstance, hok, ((swap_laws pairApart ⟨1, 1⟩ ⟨2, 1⟩).2.2 hok).2.mpr ?_⟩
  intro i j ha hb k v hlo hhi
  obtain rfl := ha.inj (indexOf?_eq_some_iff.mp (by decide : pairApart.indexOf? ⟨1, 1⟩ = some 0))
  obtain rfl := hb.inj (indexOf?_eq_some_iff.mp (by decide : pairApart.indexOf? ⟨2, 1⟩ = some 1))
  omega

/-- Two equal values with another one behind them. -/
def equalPair : Queue Nat :=
  ⟨[1, 1, 2], [], [], 0, 0⟩

/-- The first of two equal values goes past the second one, which is found first from then on. -/
theorem not_restored_equalPair :
    (equalPair.swap 1 2).1 = .ok () ∧ ((equalPair.swap 1 2).2.swap 1 2).1 = .ok () ∧
      ((equalPair.swap 1 2).2.swap 1 2).2.items = [1, 2, 1] ∧
      ((equalPair.swap 1 2).2.swap 1 2).2.items ≠ equalPair.items :=
  ⟨rfl, rfl, rfl, by decide⟩

end Depot.Queue
