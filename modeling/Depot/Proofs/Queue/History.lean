import Depot.Proofs.Queue.Session
import Mathlib.Data.List.Induction

/-!
# Runs of a queue and its consumers

A run is a list of commands, each of which is one step of a session; its `History` is the session
it ends in with the events on the way. A run starts with an empty queue for any number of
listeners and without consumers.

* `values` and `History.enqueued` are the values that came in, by the commands and by the events.
* `History.Waits` says of a ticket that its consumer registered and did not depart yet, neither
  with a value nor because it was dropped.

Results:
* `run_sound`: every session of a run is sound.
* `run_induction`: what the empty queue has, and every transition keeps, the queue of every run
  has.
* `isLive_iff_waits`: the consumers with an open channel are those that wait.
* `stored_or_awaited`: **no wake-up is lost.** In no state of a run is a value stored while a
  listener is registered, or while a consumer waits to which nothing was handed.

The specification (section 8) asks that stored values and listeners exclude each other. Out of
scope: how long a consumer sleeps.
-/

namespace Depot.Queue

variable {α : Type} {q q' : Queue α} {t : Ticket} {e : Option (Event α)}

/-! ## Runs -/

/-- A session with the events that led to it. -/
structure History (α : Type) where
  session : Session α
  events : List (Event α)

namespace History

/-- An empty queue for at most `capacity` listeners, without consumers. -/
def start (capacity : Nat) : History α :=
  ⟨.ofQueue (.empty capacity), []⟩

/-- The queue of the session. -/
abbrev queue (h : History α) : Queue α :=
  h.session.queue

/-- The values that came in, oldest first. -/
def enqueued (h : History α) : List α :=
  h.events.filterMap Event.enqueued?

/-- A consumer has registered, and neither took a value nor was dropped. -/
def Waits (h : History α) (t : Ticket) : Prop :=
  .registered t ∈ h.events ∧ ∀ e ∈ h.events, e.departs ≠ some t

/-- One more command. -/
def step [BEq α] (h : History α) (c : Command α) : History α :=
  ⟨(h.session.step c).2, h.events ++ (h.session.step c).1.toList⟩

end History

/-! ## One event more -/

theorem filterMap_concat_none {β : Type} {f : Event α → Option β} {e : Event α}
    (h : f e = none) (es : List (Event α)) : (es ++ [e]).filterMap f = es.filterMap f := by
  rw [List.filterMap_append, List.filterMap_cons_none h, List.filterMap_nil, List.append_nil]

theorem filterMap_concat_some {β : Type} {f : Event α → Option β} {e : Event α} {b : β}
    (h : f e = some b) (es : List (Event α)) : (es ++ [e]).filterMap f = es.filterMap f ++ [b] := by
  rw [List.filterMap_append, List.filterMap_cons_some h, List.filterMap_nil]

theorem filterMap_toList {β : Type} (f : Event α → Option β) (e : Option (Event α)) :
    e.toList.filterMap f = (e.bind f).toList := by
  cases e with
  | none => rfl
  | some e => cases hf : f e <;> simp [hf]

/-- The consumers with an open channel are those that wait; tickets of others were given out. -/
structure Attended (q : Queue α) (es : List (Event α)) : Prop where
  live : ∀ t, q.isLive t = true ↔ .registered t ∈ es ∧ ∀ e ∈ es, e.departs ≠ some t
  departed : ∀ e ∈ es, ∀ t, e.departs = some t → t < q.nextTicket

theorem attended_empty (capacity : Nat) : Attended (empty capacity : Queue α) [] :=
  ⟨fun t => by simp [isLive, channel?, empty], fun e he => absurd he List.not_mem_nil⟩

theorem Attended.step {es : List (Event α)} (h : Attended q es) (hq : q.Sound)
    (hT : Transition q e q') : Attended q' (es ++ e.toList) where
  departed := by
    intro e' he' t ht
    refine Nat.lt_of_lt_of_le ?_ hT.nextTicket_le
    rcases List.mem_append.mp he' with he' | he'
    · exact h.departed e' he' t ht
    · rw [Option.mem_toList] at he'
      rw [he'] at hT
      exact hq.channels_issued t (hT.live_of_departs ht)
  live := by
    intro t
    rw [hT.isLive_iff, h.live]
    cases e with
    | none => simp
    | some e =>
      by_cases he : e = .registered t
      · -- The ticket is new, so none of the events before can be about it.
        have hnew : ∀ e' ∈ es, e'.departs ≠ some t := fun e' he' ht => by
          rw [he] at hT
          exact Nat.lt_irrefl _ (hT.registered_eq ▸ h.departed e' he' t ht)
        simp only [he, Option.toList_some, List.mem_append, List.mem_singleton, or_true, true_iff,
          true_and]
        rintro e' (he' | rfl)
        · exact hnew e' he'
        · simp [Event.departs]
      · simp only [Option.bind_some, Option.some.injEq, he, or_false, Option.toList_some,
          List.mem_append, List.mem_singleton, eq_comm (a := Event.registered t)]
        constructor
        · rintro ⟨⟨hr, hd⟩, hn⟩
          refine ⟨hr, ?_⟩
          rintro e' (he' | rfl)
          · exact hd e' he'
          · exact hn
        · rintro ⟨hr, hd⟩
          exact ⟨⟨hr, fun e' he' => hd e' (Or.inl he')⟩, hd e (Or.inr rfl)⟩

section Runs

variable [BEq α]

/-- The history of a list of commands. -/
def run (capacity : Nat) (cs : List (Command α)) : History α :=
  cs.foldl History.step (.start capacity)

theorem run_concat (capacity : Nat) (cs : List (Command α)) (c : Command α) :
    run capacity (cs ++ [c]) = (run capacity cs).step c :=
  List.foldl_concat _ _ _ _

/-- **Every session of a run is sound.** -/
theorem run_sound (capacity : Nat) (cs : List (Command α)) : (run capacity cs).session.Sound := by
  induction cs using List.reverseRecOn with
  | nil => exact ⟨sound_empty capacity, List.nodup_nil, fun t ht => absurd ht List.not_mem_nil⟩
  | append_singleton cs c ih =>
    rw [run_concat]
    exact (ih.step c).2

/-- The values that came in are those of the commands, in their order. -/
theorem enqueued_run (capacity : Nat) (cs : List (Command α)) :
    (run capacity cs).enqueued = values cs := by
  induction cs using List.reverseRecOn with
  | nil => rfl
  | append_singleton cs c ih =>
    rw [run_concat]
    unfold values at ih ⊢
    rw [List.filterMap_append, ← ih]
    simp only [History.enqueued, History.step, List.filterMap_append]
    congr 1
    cases he : ((run capacity cs).session.step c).1 with
    | some e =>
      have hv := (Session.step_makes he).enqueued?
      simp [List.filterMap_cons, hv]
    | none =>
      cases c with
      | enqueue v => exact absurd he (by simp [Session.step])
      | _ => rfl

theorem run_attended (capacity : Nat) (cs : List (Command α)) :
    Attended (run capacity cs).queue (run capacity cs).events := by
  induction cs using List.reverseRecOn with
  | nil => exact attended_empty capacity
  | append_singleton cs c ih =>
    rw [run_concat]
    have h := run_sound capacity cs
    exact ih.step h.queue (h.step c).1

/-- Where no command removes or moves a value, no event does. -/
theorem run_isReorder (capacity : Nat) {cs : List (Command α)}
    (hc : ∀ c ∈ cs, c.keepsOrder = true) :
    ∀ e ∈ (run capacity cs).events, e.isReorder = false := by
  induction cs using List.reverseRecOn with
  | nil => exact fun e he => absurd he List.not_mem_nil
  | append_singleton cs c ih =>
    rw [run_concat]
    intro e he
    rcases List.mem_append.mp he with he | he
    · exact ih (fun c hm => hc c (List.mem_append_left _ hm)) e he
    · rw [Option.mem_toList] at he
      exact (Session.step_makes he).isReorder (hc c (by simp))

/-- What the empty queue has before any event, and every transition keeps, the queue of every run
has. -/
theorem run_induction {P : Queue α → List (Event α) → Prop} {capacity : Nat}
    (h0 : P (.empty capacity) [])
    (hs : ∀ {q e q' es}, q.Sound → Attended q es → Transition q e q' → P q es →
      P q' (es ++ e.toList))
    (cs : List (Command α)) : P (run capacity cs).queue (run capacity cs).events := by
  induction cs using List.reverseRecOn with
  | nil => exact h0
  | append_singleton cs c ih =>
    have h := run_sound capacity cs
    have ha := run_attended capacity cs
    rw [run_concat]
    exact hs h.queue ha (h.step c).1 ih

/-- **The consumers with an open channel are those that wait.** -/
theorem isLive_iff_waits (capacity : Nat) (cs : List (Command α)) (t : Ticket) :
    (run capacity cs).queue.isLive t = true ↔ (run capacity cs).Waits t :=
  (run_attended capacity cs).live t

/-- **No wake-up is lost.** Whatever the users of a queue did, it stores no value while somebody
listens; so no consumer waits for a value while one is stored. -/
theorem stored_or_awaited (capacity : Nat) (cs : List (Command α)) :
    ((run capacity cs).queue.items = [] ∨ (run capacity cs).queue.listeners = []) ∧
      ∀ t, (run capacity cs).queue.channel? t = some none → (run capacity cs).queue.items = [] := by
  have h := (run_sound capacity cs).queue
  exact ⟨h.apart, fun t ht => h.items_eq_nil (h.waiting t ht)⟩

end Runs

end Depot.Queue
