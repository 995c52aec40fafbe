import Depot.Proofs.Queue.Sound

/-!
# What one operation can do to a queue

`Event` says what an operation did to a value or to a consumer, and `Transition` lists all an
operation can do: every change of a queue with the event it makes and the condition under which
it happens. Each operation of a queue is a transition (`enqueue_transition`, …), so an invariant
is proved once for each transition, not once for each operation.

* `askedEvent` is the event of a consumer that was asked, read off its answer.
* `abandonEvent` is the event of a consumer that was dropped. The value handed to it, if any, goes
  to the next consumer that waits or back to the front.

Results: transitions keep `Sound` (`Transition.sound`), and a consumer waits from the event with
which it registers to the event with which it departs (`Transition.isLive_iff`). A sound queue
never makes a consumer that waits register again (`poll_transition`).

The operations are `enqueue`, `restore`, `dequeue`, `register`, the poll and the drop of a waiter,
`remove`, `swap`, `move_to_front` and `move_to_back`.
-/

namespace Depot.Queue

variable {α : Type} {q q' : Queue α} {t u : Ticket} {v : α}

/-- What an operation did to a value or to a consumer. -/
inductive Event (α : Type) where
  /-- A value came in. -/
  | enqueued (v : α)
  /-- A stored value was taken, by a consumer that did not have to wait for it. -/
  | taken (v : α)
  /-- A consumer began to wait. -/
  | registered (t : Ticket)
  /-- A consumer that waited took the value that was handed to it. -/
  | received (t : Ticket) (v : α)
  /-- A consumer was dropped before anything was handed to it. -/
  | withdrawn (t : Ticket)
  /-- A consumer was dropped, and the value handed to it went to another one. -/
  | passedOn (t : Ticket) (v : α)
  /-- A consumer was dropped, and the value handed to it was put in front. -/
  | putBack (t : Ticket) (v : α)
  /-- A stored value was removed. -/
  | discarded (v : α)
  /-- Stored values changed places. -/
  | rearranged
  deriving DecidableEq

namespace Event

/-- The value that came in. -/
def enqueued? : Event α → Option α
  | .enqueued v => some v
  | _ => none

/-- The value that a consumer got as its result. -/
def returned? : Event α → Option α
  | .taken v | .received _ v => some v
  | _ => none

/-- The value that was removed. -/
def discarded? : Event α → Option α
  | .discarded v => some v
  | _ => none

/-- The consumer that was dropped while it waited. -/
def dropped? : Event α → Option Ticket
  | .withdrawn t | .passedOn t _ | .putBack t _ => some t
  | _ => none

/-- Whether an event answers a consumer that was asked. -/
def isAnswer : Event α → Bool
  | .taken _ | .registered _ | .received _ _ => true
  | _ => false

/-- Whether stored values were removed or changed places. -/
def isReorder : Event α → Bool
  | .discarded _ | .rearranged => true
  | _ => false

/-- The consumer that no longer waits after an event. -/
def departs : Event α → Option Ticket
  | .received t _ | .withdrawn t | .passedOn t _ | .putBack t _ => some t
  | _ => none

theorem departs_of_dropped {e : Event α} (h : e.dropped? = some t) : e.departs = some t := by
  cases e <;> first | exact h | exact absurd h (by simp [dropped?])

end Event

/-- The event of a consumer that was asked. -/
def askedEvent (w : Waiter) : Poll α → Option (Event α)
  | .pending (.registered t) => if w = .registered t then none else some (.registered t)
  | .pending .fresh => none
  | .done (.ok v) =>
    match w with
    | .fresh => some (.taken v)
    | .registered t => some (.received t v)
  | .done (.error _) => none

/-- The event of a consumer that is abandoned. -/
def abandonEvent (q : Queue α) : Waiter → Option (Event α)
  | .fresh => none
  | .registered t =>
    match q.channel? t with
    | none => none
    | some none => some (.withdrawn t)
    | some (some v) =>
      if ((q.close t).handOff v).1 then some (.passedOn t v) else some (.putBack t v)

/-- The event of removing the value named `target`, which is the first that is equal to it. -/
def discardEvent [BEq α] (q : Queue α) (target : α) : Except QueueError Unit → Option (Event α)
  | .ok () => (q.items.find? (· == target)).map .discarded
  | .error _ => none

/-- The event of moving values. -/
def moveEvent : Except QueueError Unit → Option (Event α)
  | .ok () => some .rearranged
  | .error _ => none

/-- The ticket of a consumer that has registered. -/
def Waiter.ticket? : Waiter → Option Ticket
  | .fresh => none
  | .registered t => some t

/-- The ticket of a consumer that still waits after it was asked. -/
def Poll.ticket? : Poll α → Option Ticket
  | .pending w => w.ticket?
  | .done _ => none

theorem askedEvent_isAnswer {w : Waiter} {p : Poll α} {e : Event α}
    (h : askedEvent w p = some e) : e.isAnswer = true := by
  unfold askedEvent at h
  split at h
  · split_ifs at h
    obtain rfl := Option.some.inj h
    rfl
  · exact absurd h (by simp)
  · split at h <;> obtain rfl := Option.some.inj h <;> rfl
  · exact absurd h (by simp)

theorem abandonEvent_dropped {w : Waiter} {e : Event α} (h : q.abandonEvent w = some e) :
    ∃ t, w.ticket? = some t ∧ e.dropped? = some t := by
  cases w with
  | fresh => exact absurd h (by simp [abandonEvent])
  | registered t =>
    refine ⟨t, rfl, ?_⟩
    unfold abandonEvent at h
    simp only at h
    split at h
    · exact absurd h (by simp)
    · obtain rfl := Option.some.inj h
      rfl
    · split_ifs at h <;> obtain rfl := Option.some.inj h <;> rfl

/-! ## Transitions -/

/-- What an operation can do to a queue, with the event it makes. -/
inductive Transition (q : Queue α) : Option (Event α) → Queue α → Prop
  | stay : Transition q none q
  | store (v : α) (h : q.liveListeners = []) :
      Transition q (some (.enqueued v)) { q with items := q.items ++ [v], listeners := [] }
  | handOver (v : α) {t : Ticket} {rest : List Ticket} (hs : t :: rest <:+ q.listeners)
      (hl : q.liveListeners = t :: rest.filter q.isLive) :
      Transition q (some (.enqueued v)) { q.deliver t v with listeners := rest }
  | take {v : α} {rest : List α} (h : q.items = v :: rest) :
      Transition q (some (.taken v)) { q with items := rest }
  | register (hi : q.items = []) (hc : q.liveListeners.length < q.capacity) :
      Transition q (some (.registered q.nextTicket)) q.enrol
  | refuse (hi : q.items = []) (hc : q.capacity ≤ q.liveListeners.length) :
      Transition q none { q with listeners := q.liveListeners }
  | receive {t : Ticket} {v : α} (h : q.channel? t = some (some v)) :
      Transition q (some (.received t v)) (q.close t)
  | withdraw {t : Ticket} (h : q.channel? t = some none) :
      Transition q (some (.withdrawn t)) (q.close t)
  | passOn {t u : Ticket} {v : α} {rest : List Ticket} (h : q.channel? t = some (some v))
      (hs : u :: rest <:+ q.listeners)
      (hl : (q.close t).liveListeners = u :: rest.filter (q.close t).isLive) :
      Transition q (some (.passedOn t v)) { (q.close t).deliver u v with listeners := rest }
  | putBack {t : Ticket} {v : α} (h : q.channel? t = some (some v))
      (hl : (q.close t).liveListeners = []) :
      Transition q (some (.putBack t v)) { q.close t with items := v :: q.items, listeners := [] }
  | discard {i : Nat} {v : α} (h : q.items[i]? = some v) :
      Transition q (some (.discarded v)) { q with items := q.items.eraseIdx i }
  | rearrange {xs : List α} (hi : q.items ≠ []) (hp : xs.Perm q.items) :
      Transition q (some .rearranged) { q with items := xs }

/-- **Every transition keeps a queue sound.** -/
theorem Transition.sound {e : Option (Event α)} (hT : Transition q e q') (h : q.Sound) :
    q'.Sound := by
  cases hT with
  | stay => exact h
  | store v hl => exact h.unheard hl _
  | handOver v hs hl => exact h.handOver hs hl v
  | take hi => exact h.setItems (by simp [hi]) _
  | register hi hc => exact h.enrol hi
  | refuse hi hc => exact h.purge
  | receive hc => exact h.close _
  | withdraw hc => exact h.close _
  | passOn hc hs hl => exact (h.close _).handOver hs hl _
  | putBack hc hl => exact (h.close _).unheard hl _
  | discard hi => exact h.setItems (fun hn => by simp [hn] at hi) _
  | rearrange hi hp => exact h.setItems hi _

/-- **A consumer waits until it departs**: after a transition the consumers that wait are those
that waited before and did not depart, and the one that registered. -/
theorem Transition.isLive_iff {e : Option (Event α)} (hT : Transition q e q') (u : Ticket) :
    q'.isLive u = true ↔
      q.isLive u = true ∧ e.bind Event.departs ≠ some u ∨ e = some (.registered u) := by
  cases hT with
  | stay | store | take | refuse | discard | rearrange =>
    simp [isLive, channel?, Event.departs]
  | @handOver v t rest hs hl =>
    have e : ({ q.deliver t v with listeners := rest } : Queue α).isLive u = q.isLive u :=
      isLive_deliver q t u v
    simp [e, Event.departs]
  | register hi hc =>
    rw [isLive_enrol]
    simp [Event.departs, eq_comm (a := u)]
  | @receive t v hc =>
    rw [isLive_close]
    simp [Event.departs, eq_comm (a := u) (b := t)]
  | @withdraw t hc =>
    rw [isLive_close]
    simp [Event.departs, eq_comm (a := u) (b := t)]
  | @passOn t w v rest hc hs hl =>
    have e : ({ (q.close t).deliver w v with listeners := rest } : Queue α).isLive u =
        (q.isLive u && u != t) := (isLive_deliver _ w u v).trans (isLive_close q t u)
    simp [e, Event.departs, eq_comm (a := u) (b := t)]
  | @putBack t v hc hl =>
    have e : ({ q.close t with items := v :: q.items, listeners := [] } : Queue α).isLive u =
        (q.isLive u && u != t) := isLive_close q t u
    simp [e, Event.departs, eq_comm (a := u) (b := t)]

/-- A consumer departs while it waits. -/
theorem Transition.live_of_departs {e : Option (Event α)} (hT : Transition q e q')
    (h : e.bind Event.departs = some t) : q.isLive t = true := by
  cases hT with
  | receive hc | withdraw hc | passOn hc | putBack hc =>
    obtain rfl := Option.some.inj h
    exact isLive_of_channel? hc
  | _ => exact absurd h (by simp [Event.departs])

theorem Transition.nextTicket_le {e : Option (Event α)} (hT : Transition q e q') :
    q.nextTicket ≤ q'.nextTicket := by
  cases hT with
  | register hi hc => exact Nat.le_succ _
  | _ => exact Nat.le_refl _

/-- A consumer registers with a ticket that nobody has. -/
theorem Transition.registered_eq (hT : Transition q (some (.registered t)) q') :
    t = q.nextTicket := by
  cases hT
  rfl

/-! ## The operations are transitions -/

theorem enqueue_transition (q : Queue α) (v : α) :
    Transition q (some (.enqueued v)) (q.enqueue v) := by
  unfold enqueue
  cases hl : q.liveListeners with
  | nil =>
    rw [handOff_of_live_nil hl]
    exact .store v hl
  | cons t ts =>
    obtain ⟨rest, hs, hr, he⟩ := handOff_of_live_cons hl v
    rw [he]
    exact .handOver v hs (hr ▸ hl)

theorem dequeue_transition (q : Queue α) :
    Transition q (askedEvent .fresh (.done q.dequeue.1)) q.dequeue.2 := by
  unfold dequeue
  cases hi : q.items with
  | nil => exact .stay
  | cons v rest => exact .take hi

theorem register_of_cons {rest : List α} (hi : q.items = v :: rest) :
    q.register = (.ready v, { q with items := rest }) := by
  unfold register
  rw [hi]

theorem register_of_room (hi : q.items = []) (hc : q.liveListeners.length < q.capacity) :
    q.register = (.waiting q.nextTicket, q.enrol) := by
  unfold register
  split
  · rename_i hv
    exact absurd (hi.symm.trans hv) (by simp)
  · exact if_neg (Nat.not_le.mpr hc)

theorem register_of_full (hi : q.items = []) (hc : q.capacity ≤ q.liveListeners.length) :
    q.register = (.refused .tooManyListeners, { q with listeners := q.liveListeners }) := by
  unfold register
  split
  · rename_i hv
    exact absurd (hi.symm.trans hv) (by simp)
  · exact if_pos hc

/-- A consumer that asks for the first time takes a value, is refused, or registers. -/
theorem attempt_transition (q : Queue α) :
    Transition q (askedEvent .fresh q.attempt.1) q.attempt.2 := by
  unfold attempt
  by_cases hi : q.items = []
  · rcases Nat.lt_or_ge q.liveListeners.length q.capacity with hc | hc
    · rw [register_of_room hi hc]
      exact .register hi hc
    · rw [register_of_full hi hc]
      exact .refuse hi hc
  · obtain ⟨v, rest, hv⟩ := List.exists_cons_of_ne_nil hi
    rw [register_of_cons hv]
    exact .take hv

/-- **A consumer that waits never registers again**: in a sound queue it stays as it is until a
value was handed to it, and takes that value. -/
theorem poll_transition (h : q.Sound) {w : Waiter}
    (hw : ∀ t, w = .registered t → q.isLive t = true) :
    Transition q (askedEvent w (q.poll w).1) (q.poll w).2 := by
  cases w with
  | fresh => exact attempt_transition q
  | registered t =>
    obtain ⟨o, ho⟩ := Option.isSome_iff_exists.mp (hw t rfl)
    have hc : q.channel? t = some o := ho
    unfold poll
    cases o with
    | none =>
      simp only [hc, if_pos (h.waiting t hc), askedEvent]
      exact .stay
    | some v =>
      simp only [hc, askedEvent]
      exact .receive hc

theorem abandon_transition {w : Waiter} (hw : ∀ t, w = .registered t → q.isLive t = true) :
    Transition q (q.abandonEvent w) (q.abandon w) := by
  cases w with
  | fresh => exact .stay
  | registered t =>
    obtain ⟨o, ho⟩ := Option.isSome_iff_exists.mp (hw t rfl)
    have hc : q.channel? t = some o := ho
    unfold abandon abandonEvent
    cases o with
    | none =>
      simp only [hc]
      exact .withdraw hc
    | some v =>
      simp only [hc, restore]
      cases hl : (q.close t).liveListeners with
      | nil =>
        rw [handOff_of_live_nil hl]
        exact .putBack hc hl
      | cons u us =>
        obtain ⟨rest, hs, hr, he⟩ := handOff_of_live_cons hl v
        rw [he]
        exact .passOn hc hs (hr ▸ hl)

/-! ## Moving and removing values -/

theorem exchange_perm (xs : List α) (i j : Nat) : (exchange xs i j).Perm xs := by
  unfold exchange
  split
  · rename_i a b ha hb
    obtain ⟨hi, rfl⟩ := List.getElem?_eq_some_iff.mp ha
    obtain ⟨hj, rfl⟩ := List.getElem?_eq_some_iff.mp hb
    exact List.set_set_perm hi hj
  · exact List.Perm.refl xs

theorem rotateToFront_perm : ∀ (i : Nat) (xs : List α), (rotateToFront xs i).Perm xs
  | 0, xs => List.Perm.refl xs
  | i + 1, xs => (rotateToFront_perm i _).trans (exchange_perm xs (i + 1) i)

theorem rotateToBack_perm : ∀ (steps i : Nat) (xs : List α), (rotateToBack xs i steps).Perm xs
  | 0, _, xs => List.Perm.refl xs
  | steps + 1, i, xs => (rotateToBack_perm steps (i + 1) _).trans (exchange_perm xs i (i + 1))

section Named

variable [BEq α]

theorem remove_transition (q : Queue α) (target : α) :
    Transition q (q.discardEvent target (q.remove target).1) (q.remove target).2 := by
  unfold remove
  cases hi : q.indexOf? target with
  | none => exact .stay
  | some i =>
    obtain ⟨hlt, heq, hmin⟩ := List.findIdx?_eq_some_iff_getElem.mp hi
    have hf : q.items.find? (· == target) = some q.items[i] :=
      List.find?_eq_some_iff_getElem.mpr ⟨heq, i, hlt, rfl, fun j hj => by simpa using hmin j hj⟩
    simp only [discardEvent, hf, Option.map_some]
    exact .discard (List.getElem?_eq_getElem hlt)

theorem swap_transition (q : Queue α) (a b : α) :
    Transition q (moveEvent (q.swap a b).1) (q.swap a b).2 := by
  unfold swap
  split_ifs with he
  · exact .stay
  · split
    · split_ifs
      · exact .stay
      · exact .rearrange (fun h => he (by simp [h])) (exchange_perm _ _ _)
    · exact .stay

theorem moveToFront_transition (q : Queue α) (target : α) :
    Transition q (moveEvent (q.moveToFront target).1) (q.moveToFront target).2 := by
  unfold moveToFront
  split_ifs with he
  · exact .stay
  · split
    · exact .stay
    · exact .stay
    · exact .rearrange (fun h => he (by simp [h])) (rotateToFront_perm _ _)

theorem moveToBack_transition (q : Queue α) (target : α) :
    Transition q (moveEvent (q.moveToBack target).1) (q.moveToBack target).2 := by
  unfold moveToBack
  split_ifs with he
  · exact .stay
  · split
    · exact .stay
    · split_ifs
      · exact .stay
      · exact .rearrange (fun h => he (by simp [h])) (rotateToBack_perm _ _ _)

end Named

end Depot.Queue
