import Depot.Proofs.Queue.Transition
import Mathlib.Data.List.Perm.Subperm

/-!
# Commands to a session

A session is a queue with the consumers that use it. `Command` lists what its users can ask for;
`Session.step` does one command and says which event it makes, read off the answer of the
operation it calls.

* `Owned` says that consumers own their tickets: each is held by one of them, and what is held is
  waited for. A session is `Sound` if its queue is and its consumers own their tickets.
* `Command.Makes` are the events that a command can make.

Results: in a sound session every command is one transition of the queue, and leaves the session
sound (`Session.Sound.step`); the event of a command is one that it can make
(`Session.step_makes`).

The operations are `enqueue`, `dequeue`, `remove`, `swap`, `move_to_front`, `move_to_back`, and
`dequeue_or_wait_async` and `dequeue_or_wait_for_next_element` poll by poll.
-/

namespace Depot.Queue

variable {α : Type} {q q' : Queue α} {t u : Ticket} {e : Option (Event α)} {w : Waiter}

/-! ## Tickets of consumers -/

/-- The tickets of the consumers of a table. -/
def tickets (ws : List (String × Waiter)) : List Ticket :=
  ws.filterMap fun w => w.2.ticket?

theorem tickets_cons (c : String × Waiter) (ws : List (String × Waiter)) :
    tickets (c :: ws) = c.2.ticket?.toList ++ tickets ws := by
  unfold tickets
  rw [List.filterMap_cons]
  cases c.2.ticket? <;> rfl

/-- Who is added to the second of two tables comes before the tickets of both. -/
theorem tickets_append_cons (c : String × Waiter) (ws bs : List (String × Waiter)) :
    (tickets ws ++ tickets (c :: bs)).Perm (c.2.ticket?.toList ++ (tickets ws ++ tickets bs)) := by
  rw [tickets_cons]
  exact List.perm_append_comm_assoc ..

theorem tickets_without_sublist (name : String) (ws : List (String × Waiter)) :
    (tickets (Session.without name ws)).Sublist (tickets ws) :=
  List.filter_sublist.filterMap _

/-- A consumer of a table and what is left without its name have different tickets of the table. -/
theorem tickets_subperm {name : String} :
    ∀ {ws : List (String × Waiter)}, ws.lookup name = some w →
      (w.ticket?.toList ++ tickets (Session.without name ws)).Subperm (tickets ws)
  | [], h => absurd h (by simp)
  | c :: ws, h => by
    rw [List.lookup_cons] at h
    rw [tickets_cons]
    by_cases hc : name = c.1
    · rw [beq_iff_eq.mpr hc] at h
      obtain rfl := Option.some.inj h
      have hw : Session.without name (c :: ws) = Session.without name ws :=
        List.filter_cons_of_neg (by simp [hc])
      rw [hw]
      exact ((tickets_without_sublist name ws).append_left _).subperm
    · rw [beq_eq_false_iff_ne.mpr hc] at h
      have hw : Session.without name (c :: ws) = c :: Session.without name ws :=
        List.filter_cons_of_pos (by simpa using fun e => hc e.symm)
      rw [hw, tickets_cons]
      have hp := List.perm_append_comm_assoc w.ticket?.toList c.2.ticket?.toList
        (tickets (Session.without name ws))
      exact hp.subperm.trans ((List.subperm_append_left _).mpr (tickets_subperm h))

theorem tickets_answered (name : String) (p : Poll α) (ws : List (String × Waiter)) :
    tickets (Session.answered name p ws)
      = p.ticket?.toList ++ tickets (Session.without name ws) := by
  cases p with
  | done r => rfl
  | pending w => exact tickets_cons (name, w) _

/-- Consumers own tickets: nobody else has them, and their channels are open. -/
structure Owned (q : Queue α) (ts : List Ticket) : Prop where
  nodup : ts.Nodup
  live : ∀ t ∈ ts, q.isLive t = true

theorem Owned.mono {ts us : List Ticket} (h : Owned q ts) (hs : us.Subperm ts) : Owned q us where
  nodup := by
    obtain ⟨l, hp, hl⟩ := hs
    exact hp.nodup_iff.mp (h.nodup.sublist hl)
  live := fun t ht => h.live t (hs.subset ht)

/-- The consumer of a name in a table owns its ticket beside those of all other consumers. -/
theorem Owned.of_lookup {ws : List (String × Waiter)} {name : String} {others : List Ticket}
    (h : Owned q (tickets ws ++ others)) (hl : ws.lookup name = some w) :
    Owned q (w.ticket?.toList ++ (tickets (Session.without name ws) ++ others)) := by
  rw [← List.append_assoc]
  exact h.mono ((List.subperm_append_right _).mpr (tickets_subperm hl))

/-- One consumer comes with the ticket `before`, if any, and goes on with `after`; the others are
not touched. -/
theorem Owned.replace {before : Option Ticket} {others : List Ticket} (hq : q.Sound)
    (h : Owned q (before.toList ++ others)) (hT : Transition q e q') (after : Option Ticket)
    (hd : ∀ u, e.bind Event.departs = some u → before = some u ∧ after = none)
    (ha : ∀ u, after = some u → before = some u ∧ e = none ∨ e = some (.registered u)) :
    Owned q' (after.toList ++ others) := by
  obtain ⟨-, hothers, hdisj⟩ := List.nodup_append.mp h.nodup
  have hlive : ∀ u ∈ others, q'.isLive u = true := fun u hu =>
    (hT.isLive_iff u).mpr (Or.inl ⟨h.live u (List.mem_append_right _ hu), fun hdu =>
      hdisj u (by simp [(hd u hdu).1]) u hu rfl⟩)
  cases after with
  | none => exact ⟨hothers, hlive⟩
  | some t =>
    have hne : t ∉ others := by
      intro ht
      rcases ha t rfl with ⟨hb, -⟩ | he
      · exact hdisj t (by simp [hb]) t ht rfl
      · have hl := h.live t (List.mem_append_right _ ht)
        rw [he] at hT
        exact Nat.lt_irrefl _ (hT.registered_eq ▸ hq.channels_issued t hl)
    refine ⟨List.nodup_cons.mpr ⟨hne, hothers⟩, fun u hu => ?_⟩
    rcases List.mem_cons.mp hu with rfl | hu
    · refine (hT.isLive_iff u).mpr ?_
      rcases ha u rfl with ⟨hb, he⟩ | he
      · exact Or.inl ⟨h.live u (by simp [hb]), by simp [he]⟩
      · exact Or.inr he
    · exact hlive u hu

theorem askedEvent_departs {p : Poll α} (h : (askedEvent w p).bind Event.departs = some u) :
    w.ticket? = some u ∧ p.ticket? = none := by
  cases p with
  | pending w' =>
    cases w' with
    | fresh => exact absurd h (by simp [askedEvent])
    | registered t =>
      simp only [askedEvent] at h
      split_ifs at h
      · exact absurd h (by simp)
      · exact absurd h (by simp [Event.departs])
  | done r =>
    cases r with
    | error err => exact absurd h (by simp [askedEvent])
    | ok v =>
      cases w with
      | fresh => exact absurd h (by simp [askedEvent, Event.departs])
      | registered t => exact ⟨h, rfl⟩

theorem askedEvent_fresh_departs (p : Poll α) :
    (askedEvent .fresh p).bind Event.departs = none := by
  cases hd : (askedEvent .fresh p).bind Event.departs with
  | none => rfl
  | some u => exact absurd (askedEvent_departs hd).1 (by simp [Waiter.ticket?])

theorem discardEvent_departs [BEq α] (target : α) (r : Except QueueError Unit) :
    (q.discardEvent target r).bind Event.departs = none := by
  unfold discardEvent
  cases r with
  | error err => rfl
  | ok _ => cases q.items.find? (· == target) <;> rfl

theorem moveEvent_departs (r : Except QueueError Unit) :
    (moveEvent r : Option (Event α)).bind Event.departs = none := by
  cases r <;> rfl

theorem askedEvent_ticket {p : Poll α} (h : p.ticket? = some u) :
    w.ticket? = some u ∧ askedEvent w p = none ∨ askedEvent w p = some (.registered u) := by
  cases p with
  | done r => exact absurd h (by simp [Poll.ticket?])
  | pending w' =>
    cases w' with
    | fresh => exact absurd h (by simp [Poll.ticket?, Waiter.ticket?])
    | registered t =>
      obtain rfl : t = u := Option.some.inj h
      by_cases hw : w = .registered t
      · exact Or.inl ⟨by rw [hw]; rfl, by simp [askedEvent, hw]⟩
      · exact Or.inr (by simp [askedEvent, hw])

theorem abandonEvent_departs (h : (q.abandonEvent w).bind Event.departs = some u) :
    w.ticket? = some u := by
  obtain ⟨e, he, hu⟩ := Option.bind_eq_some_iff.mp h
  obtain ⟨t, hw, ht⟩ := abandonEvent_dropped he
  rw [hw, ← hu, Event.departs_of_dropped ht]

theorem Owned.of_ticket {ts : List Ticket} (h : Owned q (w.ticket?.toList ++ ts)) :
    ∀ t, w = .registered t → q.isLive t = true := by
  rintro t rfl
  exact h.live t List.mem_cons_self

/-- Asking a consumer is a transition, after which consumers own their tickets as before. -/
theorem poll_owned {others : List Ticket} (hq : q.Sound)
    (h : Owned q (w.ticket?.toList ++ others)) :
    Transition q (askedEvent w (q.poll w).1) (q.poll w).2 ∧
      Owned (q.poll w).2 ((q.poll w).1.ticket?.toList ++ others) := by
  have hT := poll_transition hq h.of_ticket
  exact ⟨hT, h.replace hq hT _ (fun _ => askedEvent_departs) fun _ => askedEvent_ticket⟩

/-- Abandoning a consumer is a transition, after which nobody has its ticket. -/
theorem abandon_owned {others : List Ticket} (hq : q.Sound)
    (h : Owned q (w.ticket?.toList ++ others)) :
    Transition q (q.abandonEvent w) (q.abandon w) ∧ Owned (q.abandon w) others := by
  have hT := abandon_transition h.of_ticket
  refine ⟨hT, h.replace hq hT none (fun u hu => ⟨abandonEvent_departs hu, rfl⟩) ?_⟩
  exact fun u hu => absurd hu (by simp)

/-! ## Commands -/

/-- What the users of a session ask for. Each command is one step. -/
inductive Command (α : Type) where
  | enqueue (v : α)
  | dequeue
  /-- Makes a waiter that was not asked yet; another one of that name is dropped. -/
  | wait (name : String)
  | poll (name : String)
  | drop (name : String)
  /-- A consumer that blocks begins to wait, unless it has its result at once. -/
  | start (name : String)
  /-- A consumer that blocks returns, if something was handed to it. -/
  | join (name : String)
  | remove (target : α)
  | swap (a b : α)
  | moveToFront (target : α)
  | moveToBack (target : α)
  deriving DecidableEq

/-- The value that a command brings in. -/
def Command.value? : Command α → Option α
  | .enqueue v => some v
  | _ => none

/-- Whether a command leaves the order of the stored values alone. -/
def Command.keepsOrder : Command α → Bool
  | .remove _ | .swap _ _ | .moveToFront _ | .moveToBack _ => false
  | _ => true

/-- The events that a command can make. -/
def Command.Makes : Command α → Event α → Prop
  | .enqueue v, e => e = .enqueued v
  | .dequeue, e | .poll _, e | .start _, e | .join _, e => e.isAnswer = true
  | .wait _, e | .drop _, e => e.dropped?.isSome = true
  | .remove _, e => e.discarded?.isSome = true
  | .swap _ _, e | .moveToFront _, e | .moveToBack _, e => e = .rearranged

theorem Command.Makes.enqueued? {c : Command α} {e : Event α} (h : c.Makes e) :
    e.enqueued? = c.value? := by
  cases c with
  | enqueue v =>
    rw [show e = .enqueued v from h]
    rfl
  | _ => cases e <;> first | rfl | exact absurd h (by simp [Makes, Event.isAnswer, Event.dropped?,
      Event.discarded?])

theorem Command.Makes.isReorder {c : Command α} {e : Event α} (h : c.Makes e)
    (hc : c.keepsOrder = true) : e.isReorder = false := by
  cases c with
  | remove _ | swap _ _ | moveToFront _ | moveToBack _ => exact absurd hc (by simp [keepsOrder])
  | _ => cases e <;> first | rfl | exact absurd h (by simp [Makes, Event.isAnswer, Event.dropped?])

/-- The values that a run brings in, in the order of their commands. -/
def values (cs : List (Command α)) : List α :=
  cs.filterMap Command.value?

namespace Session

variable {s : Session α} {name : String}

/-- The event of dropping the waiter of a name, if there is one. -/
def dropEvent (s : Session α) (name : String) : Option (Event α) :=
  (s.waiters.lookup name).bind s.queue.abandonEvent

/-- The event of asking the consumer of a name, if there is one. -/
def answerEvent (ws : List (String × Waiter)) (name : String) (p : Option (Poll α)) :
    Option (Event α) :=
  (ws.lookup name).bind fun w => p.bind (askedEvent w)

/-- One command, with the event it makes. -/
def step [BEq α] (s : Session α) : Command α → Option (Event α) × Session α
  | .enqueue v => (some (.enqueued v), { s with queue := s.queue.enqueue v })
  | .dequeue =>
    (askedEvent .fresh (.done s.queue.dequeue.1), { s with queue := s.queue.dequeue.2 })
  | .wait name => (s.dropEvent name, s.wait name)
  | .poll name => (answerEvent s.waiters name (s.poll name).1, (s.poll name).2)
  | .drop name => (s.dropEvent name, (s.drop name).2)
  | .start name => (askedEvent .fresh (s.start name).1, (s.start name).2)
  | .join name => (answerEvent s.blocking name (s.join name).1, (s.join name).2)
  | .remove target =>
    (s.queue.discardEvent target (s.queue.remove target).1,
      { s with queue := (s.queue.remove target).2 })
  | .swap a b => (moveEvent (s.queue.swap a b).1, { s with queue := (s.queue.swap a b).2 })
  | .moveToFront target =>
    (moveEvent (s.queue.moveToFront target).1, { s with queue := (s.queue.moveToFront target).2 })
  | .moveToBack target =>
    (moveEvent (s.queue.moveToBack target).1, { s with queue := (s.queue.moveToBack target).2 })

theorem step_makes [BEq α] {c : Command α} {e : Event α} (h : (s.step c).1 = some e) :
    c.Makes e := by
  cases c with
  | enqueue v => exact (Option.some.inj h).symm
  | dequeue | start _ => exact askedEvent_isAnswer h
  | poll _ | join _ =>
    obtain ⟨w, -, hw⟩ := Option.bind_eq_some_iff.mp h
    obtain ⟨p, -, hp⟩ := Option.bind_eq_some_iff.mp hw
    exact askedEvent_isAnswer hp
  | wait _ | drop _ =>
    obtain ⟨w, -, hw⟩ := Option.bind_eq_some_iff.mp h
    obtain ⟨t, -, ht⟩ := abandonEvent_dropped hw
    exact Option.isSome_of_eq_some ht
  | remove target =>
    unfold step discardEvent at h
    simp only at h
    split at h
    · obtain ⟨v, -, rfl⟩ := Option.map_eq_some_iff.mp h
      rfl
    · exact absurd h (by simp)
  | swap _ _ | moveToFront _ | moveToBack _ =>
    unfold step moveEvent at h
    simp only at h
    split at h
    · exact (Option.some.inj h).symm
    · exact absurd h (by simp)

theorem ask_of_lookup {q : Queue α} {ws : List (String × Waiter)} (hl : ws.lookup name = some w) :
    ask q ws name = (some (q.poll w).1, (q.poll w).2, answered name (q.poll w).1 ws) := by
  simp only [ask, hl]

/-- Asking the consumer of a name in one table is a transition, after which the consumers of this
table and all others own their tickets as before. -/
theorem ask_step {ws : List (String × Waiter)} {others : List Ticket} (hq : q.Sound)
    (h : Owned q (tickets ws ++ others)) (name : String) :
    Transition q (answerEvent ws name (ask q ws name).1) (ask q ws name).2.1 ∧
      Owned (ask q ws name).2.1 (tickets (ask q ws name).2.2 ++ others) := by
  cases hl : ws.lookup name with
  | none =>
    simp only [ask, answerEvent, hl]
    exact ⟨.stay, h⟩
  | some w =>
    obtain ⟨hT, ho⟩ := poll_owned hq (h.of_lookup hl)
    rw [ask_of_lookup hl, answerEvent, hl, tickets_answered, List.append_assoc]
    exact ⟨hT, ho⟩

/-- A session with a sound queue, whose consumers own their tickets. -/
structure Sound (s : Session α) : Prop where
  queue : s.queue.Sound
  owned : Owned s.queue (tickets s.waiters ++ tickets s.blocking)

namespace Sound

theorem blocking_owned (h : s.Sound) : Owned s.queue (tickets s.blocking ++ tickets s.waiters) :=
  h.owned.mono List.perm_append_comm.subperm

/-- The tables may lose consumers, whose tickets nobody has then. -/
theorem rest_owned (h : s.Sound) {ws bs : List (String × Waiter)}
    (hw : (tickets ws).Sublist (tickets s.waiters))
    (hb : (tickets bs).Sublist (tickets s.blocking)) :
    Owned s.queue ((none : Option Ticket).toList ++ (tickets ws ++ tickets bs)) :=
  h.owned.mono (hw.append hb).subperm

theorem drop_step (h : s.Sound) (name : String) :
    Transition s.queue (s.dropEvent name) (s.drop name).2.queue ∧ (s.drop name).2.Sound := by
  unfold drop dropEvent
  cases hl : s.waiters.lookup name with
  | none => exact ⟨.stay, h⟩
  | some w =>
    obtain ⟨hT, ho⟩ := abandon_owned h.queue (h.owned.of_lookup hl)
    exact ⟨hT, hT.sound h.queue, ho⟩

theorem wait_step (h : s.Sound) (name : String) :
    Transition s.queue (s.dropEvent name) (s.wait name).queue ∧ (s.wait name).Sound := by
  unfold wait dropEvent
  cases hl : s.waiters.lookup name with
  | none => exact ⟨.stay, h.queue, h.rest_owned (tickets_without_sublist _ _) (.refl _)⟩
  | some w =>
    obtain ⟨hT, ho⟩ := abandon_owned h.queue (h.owned.of_lookup hl)
    exact ⟨hT, hT.sound h.queue, ho⟩

theorem poll_step (h : s.Sound) (name : String) :
    Transition s.queue (answerEvent s.waiters name (s.poll name).1) (s.poll name).2.queue ∧
      (s.poll name).2.Sound := by
  obtain ⟨hT, ho⟩ := ask_step h.queue h.owned name
  exact ⟨hT, hT.sound h.queue, ho⟩

theorem start_step (h : s.Sound) (name : String) :
    Transition s.queue (askedEvent .fresh (s.start name).1) (s.start name).2.queue ∧
      (s.start name).2.Sound := by
  unfold start
  obtain ⟨hT, ho⟩ := poll_owned (w := .fresh) h.queue
    (h.rest_owned (.refl _) (tickets_without_sublist name _))
  obtain ⟨hT', ho'⟩ := poll_owned (w := .fresh) h.queue (h.rest_owned (.refl _) (.refl _))
  rw [show s.queue.poll .fresh = s.queue.attempt from rfl] at hT ho hT' ho'
  cases hp : s.queue.attempt with
  | mk p q' =>
    rw [hp] at hT ho hT' ho'
    cases p with
    | done r => exact ⟨hT', hT'.sound h.queue, ho'⟩
    | pending w' => exact ⟨hT, hT.sound h.queue, ho.mono (tickets_append_cons _ _ _).subperm⟩

theorem join_step (h : s.Sound) (name : String) :
    Transition s.queue (answerEvent s.blocking name (s.join name).1) (s.join name).2.queue ∧
      (s.join name).2.Sound := by
  obtain ⟨hT, ho⟩ := ask_step h.queue h.blocking_owned name
  exact ⟨hT, hT.sound h.queue, ho.mono List.perm_append_comm.subperm⟩

/-- A change of the queue by which no consumer departs. -/
theorem queue_step (h : s.Sound) (hT : Transition s.queue e q)
    (hd : e.bind Event.departs = none) :
    Transition s.queue e q ∧ ({ s with queue := q } : Session α).Sound :=
  ⟨hT, hT.sound h.queue, (h.rest_owned (.refl _) (.refl _)).replace h.queue hT none
    (fun u hu => absurd (hd.symm.trans hu) (by simp)) (fun u hu => absurd hu (by simp))⟩

/-- **Every command is one transition of the queue, and keeps the session sound.** -/
theorem step [BEq α] (h : s.Sound) (c : Command α) :
    Transition s.queue (s.step c).1 (s.step c).2.queue ∧ (s.step c).2.Sound := by
  cases c with
  | enqueue v => exact h.queue_step (enqueue_transition _ v) rfl
  | dequeue => exact h.queue_step (dequeue_transition _) (askedEvent_fresh_departs _)
  | wait name => exact h.wait_step name
  | poll name => exact h.poll_step name
  | drop name => exact h.drop_step name
  | start name => exact h.start_step name
  | join name => exact h.join_step name
  | remove target => exact h.queue_step (remove_transition _ target) (discardEvent_departs _ _)
  | swap a b => exact h.queue_step (swap_transition _ a b) (moveEvent_departs _)
  | moveToFront target => exact h.queue_step (moveToFront_transition _ target) (moveEvent_departs _)
  | moveToBack target => exact h.queue_step (moveToBack_transition _ target) (moveEvent_departs _)

end Sound

end Session

end Depot.Queue
