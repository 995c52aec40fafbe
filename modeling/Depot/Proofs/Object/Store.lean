import Depot.Object.Store
import Depot.Proofs.Lookup

/-!
# Objects and faults

An object that was put is found again (`find?_of_put`). A request to put an object leaves the others
as they were, and with them the requests for other steps that go through (`spares_put`).
-/

namespace Depot

/-! ## Faults -/

namespace Fault

/-- A request for one step does not decide whether the next one for another step fails. -/
theorem trip_trip {step other : StoreStep} (h : step ≠ other) (fs : List Fault) :
    (trip step (trip other fs).2).1 = (trip step fs).1 := by
  induction fs with
  | nil => rfl
  | cons f fs ih =>
    rw [trip]
    split
    · next ho =>
      have hs : f.step ≠ step := fun he => h (he.symm.trans ho)
      split
      · rw [trip, if_neg hs]
      · rw [trip, if_neg hs, trip, if_neg hs]
    · dsimp only
      by_cases hs : f.step = step
      · rw [trip, if_pos hs, trip, if_pos hs]
        split <;> rfl
      · rw [trip, if_neg hs, trip, if_neg hs]
        exact ih

end Fault

/-! ## Objects -/

namespace ObjectStore

variable {s s' : ObjectStore} {p q : ObjectPath} {c : Content}

theorem lookup_insert (p q : ObjectPath) (c : Content) (objects : List (ObjectPath × Content)) :
    (insert p c objects).lookup q = if q = p then some c else objects.lookup q := by
  induction objects with
  | nil => rw [insert, lookup_cons_if]
  | cons e rest ih =>
    obtain ⟨k, d⟩ := e
    rw [insert]
    split
    · next hk =>
      subst hk
      rw [lookup_cons_if, lookup_cons_if]
      split <;> rfl
    · next hk =>
      rw [lookup_cons_if, lookup_cons_if, ih]
      by_cases h : q = k
      · simp [h, Ne.symm hk]
      · simp [h]

/-- The store after a request for a step. -/
def after (s : ObjectStore) (step : StoreStep) : ObjectStore :=
  { s with faults := (Fault.trip step s.faults).2 }

/-- Whether the next request for a step goes through. -/
def Passes (s : ObjectStore) (step : StoreStep) : Prop :=
  (Fault.trip step s.faults).1 = none

theorem request_eq_ok {α : Type} {step : StoreStep}
    {answer : ObjectStore → Except StoreError α × ObjectStore} {a : α} :
    s.request step answer = (.ok a, s') ↔
      s.Passes step ∧ answer (s.after step) = (.ok a, s') := by
  unfold request Passes after
  rcases Fault.trip step s.faults with ⟨_ | e, faults⟩ <;> simp

/-- Apart from the objects in `K`, a store has the same objects as before, and requests go through
that did, unless they put objects. -/
structure Spares (K : ObjectPath → Prop) (s s' : ObjectStore) : Prop where
  kept : ∀ p, ¬ K p → s'.find? p = s.find? p
  passes : ∀ step, step ≠ .put → (s'.Passes step ↔ s.Passes step)

variable {K : ObjectPath → Prop}

theorem Spares.refl (K : ObjectPath → Prop) (s : ObjectStore) : Spares K s s :=
  ⟨fun _ _ => rfl, fun _ _ => .rfl⟩

theorem Spares.trans {s'' : ObjectStore} (h : Spares K s s') (h' : Spares K s' s'') :
    Spares K s s'' :=
  ⟨fun p hp => (h'.kept p hp).trans (h.kept p hp),
    fun step hs => (h'.passes step hs).trans (h.passes step hs)⟩

theorem Spares.mono {K' : ObjectPath → Prop} (h : Spares K s s') (hK : ∀ p, K p → K' p) :
    Spares K' s s' :=
  ⟨fun p hp => h.kept p fun hk => hp (hK p hk), h.passes⟩

/-- What is put is found. -/
theorem find?_of_put (h : s.put p c = (.ok (), s')) : s'.find? p = some c := by
  obtain ⟨-, h⟩ := request_eq_ok.mp h
  rw [← (Prod.mk.inj h).2]
  exact (lookup_insert p p c s.objects).trans (if_pos rfl)

/-- A request to put an object changes nothing else, whatever comes of it. -/
theorem spares_put (hp : K p) : Spares K s (s.put p c).2 := by
  unfold put request
  split
  · next e faults hf =>
    refine ⟨fun _ _ => rfl, fun step hs => ?_⟩
    rw [Passes, Passes, ← Fault.trip_trip hs s.faults, hf]
  · next faults hf =>
    refine ⟨fun q hq => ?_, fun step hs => ?_⟩
    · exact (lookup_insert p q c s.objects).trans (if_neg fun he : q = p => hq (he ▸ hp))
    · rw [Passes, Passes, ← Fault.trip_trip hs s.faults, hf]

/-- A request for one step does not decide on requests for others. -/
theorem passes_after {step other : StoreStep} (h : step ≠ other) :
    (s.after other).Passes step ↔ s.Passes step := by
  rw [Passes, Passes, after, Fault.trip_trip h]

/-- An object is got if it is there and the request goes through. -/
theorem get_eq_ok :
    s.get p = (.ok c, s') ↔ s.find? p = some c ∧ s.Passes .get ∧ s.after .get = s' := by
  rw [get, request_eq_ok, and_left_comm]
  refine and_congr_right fun _ => ?_
  rw [Prod.mk.injEq, found, find?, find?, after]
  refine and_congr_left fun _ => ?_
  cases s.objects.lookup p <;> simp

/-- An object that is not there is not found if the request goes through. -/
theorem get_of_missing (hnone : s.find? p = none) (hpass : s.Passes .get) :
    (s.get p).1 = .error .notFound := by
  unfold Passes at hpass
  unfold get request
  split
  · next e faults htrip => exact absurd (htrip ▸ hpass) (by simp)
  · next faults htrip =>
    change found { s with faults } p = _
    rw [found, show find? { s with faults } p = none from hnone]

theorem body_eq_ok {c' : Content} :
    s.body c = (.ok c', s') ↔ s.Passes .body ∧ c = c' ∧ s.after .body = s' := by
  rw [body, request_eq_ok]
  simp

end ObjectStore

end Depot
