import Depot.Proofs.Queue.Conservation
import Depot.Proofs.Queue.Registration
import Mathlib.Data.List.Sort

/-!
# How many consumers may wait

A queue has a capacity, and no more listeners than that. Listeners stay behind when their consumer
is dropped, but a consumer that asks is refused only for the sake of those that wait: the others are
removed first.

* `History.unserved` are the consumers that registered, did not depart, and were handed nothing yet,
  in the order of registration. It is read off the events and the channels, not off the listeners.
* `Session.firstAnswer?` is the answer that a command gives to a consumer that has not asked before:
  a waiter that is asked for the first time, or one that blocks.

Results:
* `Transition.bounded`: no transition makes more listeners than the capacity.
* `liveListeners_run`: the unserved consumers are the listeners whose consumer still waits.
* `listener_bound`: **a consumer is refused exactly if no value is stored and as many as the
  capacity wait unserved**; then all listeners are theirs, and nothing changes.

The consumer is refused by `register`. Out of scope: who keeps a consumer that gave up.
-/

namespace Depot.Queue

variable {α : Type} {q q' : Queue α} {t : Ticket} {e : Option (Event α)}

/-! ## No more listeners than may be -/

theorem Transition.capacity_eq (hT : Transition q e q') : q'.capacity = q.capacity := by
  cases hT <;> rfl

/-- **No transition makes more listeners than may be.** -/
theorem Transition.bounded (hT : Transition q e q') (h : q.listeners.length ≤ q.capacity) :
    q'.listeners.length ≤ q'.capacity := by
  rw [hT.capacity_eq]
  have hrest : ∀ {t : Ticket} {rest : List Ticket}, t :: rest <:+ q.listeners →
      rest.length ≤ q.capacity := fun hs =>
    (Nat.le_of_succ_le hs.length_le).trans h
  cases hT with
  | stay | take | receive | withdraw | discard | rearrange => exact h
  | store | putBack => exact Nat.zero_le _
  | handOver v hs hl => exact hrest hs
  | passOn hc hs hl => exact hrest hs
  | refuse hi hc => exact (List.length_filter_le _ _).trans h
  | register hi hc =>
    show (q.liveListeners ++ [q.nextTicket]).length ≤ q.capacity
    rw [List.length_append]
    exact hc

/-! ## Consumers that were handed nothing -/

/-- The consumers that registered and have not departed, and to which nothing was handed, in the
order of registration. -/
def History.unserved (h : History α) : List Ticket :=
  h.registered.filter fun t =>
    h.events.all (fun e => e.departs != some t) && (h.queue.channel? t).join.isNone

theorem History.mem_unserved {h : History α} :
    t ∈ h.unserved ↔ h.Waits t ∧ (h.queue.channel? t).join = none := by
  have hr : t ∈ h.registered ↔ .registered t ∈ h.events := by
    unfold registered
    rw [List.mem_filterMap]
    constructor
    · rintro ⟨e, he, ht⟩
      cases e with
      | registered u => exact Option.some.inj ht ▸ he
      | _ => exact absurd ht (by simp [Event.registered?])
    · exact fun he => ⟨_, he, rfl⟩
  unfold unserved Waits
  rw [List.mem_filter, hr]
  simp [and_assoc]

/-! ## Consumers that ask for the first time -/

theorem attempt_of_full (hi : q.items = []) (hc : q.capacity ≤ q.liveListeners.length) :
    q.attempt = (.done (.error .tooManyListeners), { q with listeners := q.liveListeners }) := by
  unfold attempt
  rw [register_of_full hi hc]

theorem attempt_refused_iff : q.attempt.1 = .done (.error .tooManyListeners) ↔
    q.items = [] ∧ q.capacity ≤ q.liveListeners.length := by
  refine ⟨fun h => ?_, fun ⟨hi, hc⟩ => by rw [attempt_of_full hi hc]⟩
  unfold attempt at h
  by_cases hi : q.items = []
  · refine ⟨hi, Nat.le_of_not_lt fun hc => ?_⟩
    rw [register_of_room hi hc] at h
    exact absurd h (by simp)
  · obtain ⟨v, rest, hv⟩ := List.exists_cons_of_ne_nil hi
    rw [register_of_cons hv] at h
    exact absurd h (by simp)

namespace Session

variable {s : Session α} {c : Command α} {p : Poll α}

/-- What a command answers to a consumer that has not asked before: to a waiter that was made and
not asked yet, or to a consumer that blocks. -/
def firstAnswer? (s : Session α) : Command α → Option (Poll α)
  | .poll name => if s.waiters.lookup name = some .fresh then (s.poll name).1 else none
  | .start name => some (s.start name).1
  | _ => none

/-- A consumer that asks for the first time makes one attempt. -/
theorem step_of_firstAnswer? [BEq α] (h : s.firstAnswer? c = some p) :
    p = s.queue.attempt.1 ∧
      (s.step c).1 = askedEvent .fresh p ∧ (s.step c).2.queue = s.queue.attempt.2 := by
  cases c with
  | poll name =>
    simp only [firstAnswer?] at h
    split_ifs at h with hl
    simp only [step, poll, ask_of_lookup hl, answerEvent, hl] at h ⊢
    obtain rfl := Option.some.inj h
    exact ⟨rfl, rfl, rfl⟩
  | start name =>
    obtain rfl := Option.some.inj h
    unfold step start
    obtain ⟨p, q'⟩ := s.queue.attempt
    cases p <;> exact ⟨rfl, rfl, rfl⟩
  | _ => exact absurd h (by simp [firstAnswer?])

end Session

/-! ## Runs -/

section Runs

variable [BEq α] (capacity : Nat) (cs : List (Command α))

theorem run_bounded : (run capacity cs).queue.capacity = capacity ∧
    (run capacity cs).queue.listeners.length ≤ (run capacity cs).queue.capacity :=
  run_induction (P := fun q _ => q.capacity = capacity ∧ q.listeners.length ≤ q.capacity)
    ⟨rfl, Nat.zero_le _⟩ (fun _ _ hT h => ⟨hT.capacity_eq.trans h.1, hT.bounded h.2⟩) cs

/-- **The unserved consumers are the listeners whose consumer still waits**, in the same order. -/
theorem liveListeners_run : (run capacity cs).queue.liveListeners = (run capacity cs).unserved := by
  have h := (run_sound capacity cs).queue
  refine List.Pairwise.eq_of_mem_iff (h.ordered.sublist List.filter_sublist)
    ((run_enrolled capacity cs).rising.sublist List.filter_sublist) fun t => ?_
  rw [h.mem_liveListeners_iff, History.mem_unserved, ← isLive_iff_waits, isLive]
  cases (run capacity cs).queue.channel? t with
  | none => simp
  | some o => cases o <;> simp

/-- **A consumer is refused only if no room is left.** A queue has at most as many listeners as its
capacity. A consumer that asks for the first time is refused exactly if no value is stored and at
least as many as the capacity wait unserved, among whom is nobody who was dropped. The listeners are
these then, so no listener is left to be removed: nothing changes, neither what is stored or held
nor who waits. -/
theorem listener_bound :
    (run capacity cs).queue.listeners.length ≤ capacity ∧
      (∀ t ∈ (run capacity cs).dropped, t ∉ (run capacity cs).unserved) ∧
      ∀ c p, (run capacity cs).session.firstAnswer? c = some p →
        (p = .done (.error .tooManyListeners) ↔
          (run capacity cs).queue.items = [] ∧ capacity ≤ (run capacity cs).unserved.length) ∧
        (p = .done (.error .tooManyListeners) →
          (run capacity cs).queue.listeners = (run capacity cs).unserved ∧
          (run capacity (cs ++ [c])).queue = (run capacity cs).queue ∧
          (run capacity (cs ++ [c])).events = (run capacity cs).events) := by
  obtain ⟨hcap, hle⟩ := run_bounded capacity cs
  have hlive := liveListeners_run capacity cs
  refine ⟨hle.trans hcap.le, fun t ht hu => ?_, fun c p hp => ?_⟩
  · obtain ⟨e, he, hd⟩ := List.mem_filterMap.mp ht
    exact (History.mem_unserved.mp hu).1.2 e he (Event.departs_of_dropped hd)
  · obtain ⟨rfl, hevent, hqueue⟩ := Session.step_of_firstAnswer? hp
    have hiff := attempt_refused_iff (q := (run capacity cs).queue)
    rw [hcap, hlive] at hiff
    refine ⟨hiff, fun h => ?_⟩
    obtain ⟨hi, hc⟩ := hiff.mp h
    -- the unserved are among the listeners, which are no more than the capacity
    have hall : (run capacity cs).unserved = (run capacity cs).queue.listeners := by
      refine List.Sublist.eq_of_length_le ?_ ((hle.trans hcap.le).trans hc)
      rw [← hlive]
      exact List.filter_sublist
    refine ⟨hall.symm, ?_, ?_⟩
    · have hfull := attempt_of_full hi (by rw [hcap, hlive]; exact hc)
      show ((run capacity (cs ++ [c])).session).queue = _
      rw [run_concat]
      refine hqueue.trans ?_
      rw [show (run capacity cs).session.queue = (run capacity cs).queue from rfl, hfull, hlive,
        hall]
    · rw [run_concat, History.step, hevent, h]
      exact List.append_nil _

end Runs

/-- Two consumers may wait. The first is dropped, the second is handed a value, and two others have
come in their place. -/
def crowdedRun : List (Command Nat) :=
  [.wait "a", .poll "a", .wait "b", .poll "b", .drop "a", .enqueue 1, .wait "c", .poll "c",
    .start "d", .wait "e"]

theorem listener_bound_crowdedRun :
    (run 2 crowdedRun).session.firstAnswer? (.poll "e") = some (.done (.error .tooManyListeners)) ∧
      (run 2 (crowdedRun ++ [.poll "e"])).queue = (run 2 crowdedRun).queue := by
  have h : (run 2 crowdedRun).session.firstAnswer? (.poll "e")
      = some (.done (.error .tooManyListeners)) := rfl
  exact ⟨h, (((listener_bound 2 crowdedRun).2.2 _ _ h).2 rfl).2.1⟩

end Depot.Queue
