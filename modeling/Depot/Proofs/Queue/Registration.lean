import Depot.Proofs.Queue.History
import Mathlib.Logic.Basic

/-!
# A consumer registers once

A consumer that registered and still waits is in one of two states: it `Listens`, that is, its
ticket stands among the listeners and nothing was handed to it, or it `Holds` a value, and then its
ticket is gone from there. There is no third one, in which its listener is gone and its channel is
empty; this is the state in which a consumer that is asked would have to start anew.

* `History.registered` are the tickets in the order of registration.
* `Session.enlisted` are the tickets with which commands of some sort let consumers register;
  `Command.polls` and `Command.joins` are the commands that ask one waiter, or one consumer that
  blocks.

Results:
* `Transition.listeners_sublist`: a transition adds no listener but the one that registers, which
  comes last.
* `Sound.poll_registered`: a consumer that waits keeps its ticket until it takes its value.
* `registers_once`: **every consumer that waits either listens or holds a value, listeners stand in
  the order of registration, each once, and nobody registers twice.**

Consumers register in `register`, at their first poll or when they begin to block.
-/

namespace Depot.Queue

variable {α : Type} {q q' : Queue α} {t : Ticket} {e : Option (Event α)} {es : List (Event α)}

/-! ## The order of registration -/

/-- The ticket of a consumer that began to wait. -/
def Event.registered? : Event α → Option Ticket
  | .registered t => some t
  | _ => none

/-- The tickets of the consumers that began to wait, in the order of registration. -/
def History.registered (h : History α) : List Ticket :=
  h.events.filterMap Event.registered?

/-- Nobody becomes a listener but the consumer that registers, and it comes last. -/
theorem Transition.listeners_sublist (hT : Transition q e q') :
    q'.listeners.Sublist (q.listeners ++ (e.bind Event.registered?).toList) := by
  have hnone : ∀ {ls : List Ticket}, ls.Sublist q.listeners → ls.Sublist (q.listeners ++ []) :=
    fun h => (List.append_nil _).symm ▸ h
  cases hT with
  | stay | take | receive | withdraw | discard | rearrange => exact hnone (.refl _)
  | store | putBack => exact List.nil_sublist _
  | refuse => exact hnone List.filter_sublist
  | handOver v hs hl => exact hnone ((List.sublist_cons_self _ _).trans hs.sublist)
  | passOn hc hs hl => exact hnone ((List.sublist_cons_self _ _).trans hs.sublist)
  | register hi hc => exact List.filter_sublist.append_right _

/-- Listeners stand in the order of registration, in which tickets rise. -/
structure Enrolled (q : Queue α) (es : List (Event α)) : Prop where
  listeners : q.listeners.Sublist (es.filterMap Event.registered?)
  rising : (es.filterMap Event.registered?).Pairwise (· < ·)
  issued : ∀ t ∈ es.filterMap Event.registered?, t < q.nextTicket

theorem enrolled_empty (capacity : Nat) : Enrolled (empty capacity : Queue α) [] :=
  ⟨.refl _, .nil, fun _ ht => absurd ht List.not_mem_nil⟩

theorem Enrolled.step (h : Enrolled q es) (hT : Transition q e q') :
    Enrolled q' (es ++ e.toList) := by
  have hnew : ∀ t ∈ (e.bind Event.registered?).toList, e = some (.registered t) := by
    intro t ht
    obtain ⟨e', rfl, he'⟩ := Option.bind_eq_some_iff.mp (Option.mem_toList.mp ht)
    cases e' with
    | registered u => rw [Option.some.inj he']
    | _ => exact absurd he' (by simp [Event.registered?])
  constructor <;> rw [List.filterMap_append, filterMap_toList]
  · exact hT.listeners_sublist.trans (h.listeners.append_right _)
  · refine List.pairwise_append.mpr ⟨h.rising, ?_, fun t ht u hu => ?_⟩
    · cases e.bind Event.registered? <;> simp
    · rw [hnew u hu] at hT
      exact hT.registered_eq ▸ h.issued t ht
  · intro t ht
    rcases List.mem_append.mp ht with ht | ht
    · exact Nat.lt_of_lt_of_le (h.issued t ht) hT.nextTicket_le
    · rw [hnew t ht] at hT
      cases hT
      exact Nat.lt_succ_self _

/-! ## Consumers that wait -/

/-- A consumer has its ticket among the listeners, and nothing was handed to it. -/
def Listens (q : Queue α) (t : Ticket) : Prop :=
  q.listeners.count t = 1 ∧ q.channel? t = some none

/-- A consumer was handed a value, and is no listener any more. -/
def Holds (q : Queue α) (t : Ticket) : Prop :=
  t ∉ q.listeners ∧ ∃ v, q.channel? t = some (some v)

/-- A consumer is no listener any more, and nothing was handed to it. -/
def Deserted (q : Queue α) (t : Ticket) : Prop :=
  t ∉ q.listeners ∧ q.channel? t = some none

theorem Sound.not_deserted (h : q.Sound) (t : Ticket) : ¬ q.Deserted t :=
  fun hd => hd.1 (h.waiting t hd.2)

theorem Sound.listens_or_holds (h : q.Sound) (hl : q.isLive t = true) :
    Xor (q.Listens t) (q.Holds t) := by
  have hd : q.listeners.Nodup := h.ordered.imp Nat.ne_of_lt
  obtain ⟨o, ho⟩ := Option.isSome_iff_exists.mp hl
  have hc : q.channel? t = some o := ho
  cases o with
  | none =>
    have hm := h.waiting t hc
    exact Or.inl ⟨⟨List.count_eq_one_of_mem hd hm, hc⟩, fun hh => hh.1 hm⟩
  | some v =>
    have hm := h.served t v hc
    exact Or.inr ⟨⟨hm, v, hc⟩, fun hh => absurd (hc.symm.trans hh.2) (by simp)⟩

/-- A consumer that waits keeps its ticket, and the queue stays as it is, until it takes the value
that was handed to it. -/
theorem Sound.poll_registered (h : q.Sound) (hl : q.isLive t = true) :
    q.poll (.registered t) = (.pending (.registered t), q) ∨
      ∃ v, q.poll (.registered t) = (.done (.ok v), q.close t) := by
  obtain ⟨o, ho⟩ := Option.isSome_iff_exists.mp hl
  have hc : q.channel? t = some o := ho
  unfold poll
  cases o with
  | none => exact Or.inl (by simp only [hc, if_pos (h.waiting t hc)])
  | some v => exact Or.inr ⟨v, by simp only [hc]⟩

/-! ## Who registers -/

/-- Whether a command asks the waiter of a name. -/
def Command.polls (name : String) : Command α → Bool
  | .poll n => n == name
  | _ => false

/-- Whether a command makes a waiter of a name. -/
def Command.makes (name : String) : Command α → Bool
  | .wait n => n == name
  | _ => false

/-- Whether a command lets the blocking consumer of a name return, if it can. -/
def Command.joins (name : String) : Command α → Bool
  | .join n => n == name
  | _ => false

/-- How often a consumer may still register. -/
def allowance : Option Waiter → Nat
  | some .fresh => 1
  | _ => 0

/-- A consumer that was asked for the first time and has no result has registered. -/
theorem allowance_attempt (q : Queue α) : allowance q.attempt.1.waiter? = 0 := by
  unfold attempt
  split <;> rfl

/-- A consumer that is asked and registers has used up its allowance. -/
theorem allowance_poll (hq : q.Sound) {w : Waiter}
    (hw : ∀ t, w = .registered t → q.isLive t = true) :
    ((askedEvent w (q.poll w).1).bind Event.registered?).toList.length +
      allowance (q.poll w).1.waiter? ≤ allowance (some w) := by
  cases w with
  | fresh =>
    rw [show q.poll .fresh = q.attempt from rfl, allowance_attempt]
    cases (askedEvent .fresh q.attempt.1).bind Event.registered? <;> simp [allowance]
  | registered t =>
    rcases hq.poll_registered (hw t rfl) with hp | ⟨v, hp⟩
    · rw [hp]
      simp [askedEvent, Poll.waiter?, allowance]
    · rw [hp]
      simp [askedEvent, Event.registered?, Poll.waiter?, allowance]

namespace Session

variable {s : Session α} {name n : String} {ws : List (String × Waiter)} {w : Waiter}

/-! ### Tables of consumers -/

theorem lookup_without (name n : String) (ws : List (String × Waiter)) :
    (without n ws).lookup name = if name = n then none else ws.lookup name :=
  lookup_filter_ne n name ws

theorem lookup_answered_self (name : String) (p : Poll α) (ws : List (String × Waiter)) :
    (answered name p ws).lookup name = p.waiter? := by
  unfold answered
  cases p.waiter? <;> simp [lookup_without]

theorem lookup_answered_ne (h : name ≠ n) (p : Poll α) (ws : List (String × Waiter)) :
    (answered n p ws).lookup name = ws.lookup name := by
  unfold answered
  cases p.waiter? <;> simp [List.lookup_cons, lookup_without, h, beq_eq_false_iff_ne.mpr h]

theorem allowance_without_le (name n : String) (ws : List (String × Waiter)) :
    allowance ((without n ws).lookup name) ≤ allowance (ws.lookup name) := by
  rw [lookup_without]
  split_ifs
  · exact Nat.zero_le _
  · exact Nat.le_refl _

/-- Asking the consumer of one name in a table uses up what it may, and does not touch the others
there. -/
theorem allowance_ask {others : List Ticket} (hq : q.Sound) (h : Owned q (tickets ws ++ others))
    (name : String) :
    (if n == name then (answerEvent ws n (ask q ws n).1).bind Event.registered?
        else none).toList.length +
      allowance ((ask q ws n).2.2.lookup name) ≤ allowance (ws.lookup name) := by
  cases hl : ws.lookup n with
  | none => simp [ask, answerEvent, hl]
  | some w =>
    rw [ask_of_lookup hl]
    by_cases hn : name = n
    · subst hn
      rw [if_pos (beq_self_eq_true name), lookup_answered_self, answerEvent, hl]
      exact allowance_poll hq (h.of_lookup hl).of_ticket
    · rw [if_neg (by simpa using Ne.symm hn), lookup_answered_ne hn]
      simp

theorem waiters_start (s : Session α) (name : String) : (s.start name).2.waiters = s.waiters := by
  unfold start
  split <;> rfl

theorem blocking_drop (s : Session α) (name : String) : (s.drop name).2.blocking = s.blocking := by
  unfold drop
  split <;> rfl

theorem blocking_start (s : Session α) (name : String) :
    (s.start name).2.blocking = s.blocking ∨
      (s.start name).2.blocking = answered name s.queue.attempt.1 s.blocking := by
  unfold start
  split
  · next h => exact Or.inr (by rw [h]; rfl)
  · exact Or.inl rfl

/-! ### Commands -/

variable [BEq α]

/-- The tickets with which the commands of some sort let consumers register. -/
def enlisted (sort : Command α → Bool) : Session α → List (Command α) → List Ticket
  | _, [] => []
  | s, c :: cs =>
    (if sort c then (s.step c).1.bind Event.registered? else none).toList ++
      enlisted sort (s.step c).2 cs

/-- Where every command uses up as much of an allowance as consumers register by it, no more of
them register than were allowed to at first. -/
theorem length_enlisted_le (sort : Command α → Bool) (consumer : Session α → Option Waiter)
    {p : Command α → Prop}
    (hstep : ∀ {s : Session α}, s.Sound → ∀ c, p c →
      (if sort c then (s.step c).1.bind Event.registered? else none).toList.length +
        allowance (consumer (s.step c).2) ≤ allowance (consumer s)) :
    ∀ {s : Session α} {cs : List (Command α)}, s.Sound → (∀ c ∈ cs, p c) →
      (enlisted sort s cs).length ≤ allowance (consumer s)
  | _, [], _, _ => Nat.zero_le _
  | s, c :: cs, h, hc => by
    have ih := length_enlisted_le sort consumer hstep (h.step c).2
      fun d hd => hc d (List.mem_cons_of_mem c hd)
    have hs := hstep h c (hc c List.mem_cons_self)
    rw [enlisted, List.length_append]
    omega

/-- A waiter that was made once registers at most once. -/
theorem allowance_waiter (name : String) (h : s.Sound) (c : Command α) (hc : c.makes name = false) :
    (if c.polls name then (s.step c).1.bind Event.registered? else none).toList.length +
      allowance ((s.step c).2.waiters.lookup name) ≤ allowance (s.waiters.lookup name) := by
  cases c with
  | poll n => exact allowance_ask h.queue h.owned name
  | wait n =>
    have hn : name ≠ n := Ne.symm (by simpa [Command.makes] using hc)
    show 0 + allowance ((answered n (.pending .fresh : Poll α) s.waiters).lookup name) ≤ _
    rw [lookup_answered_ne hn, Nat.zero_add]
  | drop n =>
    show 0 + allowance ((s.drop n).2.waiters.lookup name) ≤ _
    rw [Nat.zero_add]
    unfold drop
    split
    · exact Nat.le_refl _
    · exact allowance_without_le name n s.waiters
  | start n =>
    show 0 + allowance ((s.start n).2.waiters.lookup name) ≤ _
    rw [waiters_start, Nat.zero_add]
  | _ => exact (Nat.zero_add _).le

/-- A consumer that blocks has registered when it was started, and never does so again. -/
theorem allowance_blocking (name : String) (h : s.Sound) (c : Command α) :
    (if c.joins name then (s.step c).1.bind Event.registered? else none).toList.length +
      allowance ((s.step c).2.blocking.lookup name) ≤ allowance (s.blocking.lookup name) := by
  cases c with
  | join n => exact allowance_ask h.queue h.blocking_owned name
  | start n =>
    show 0 + allowance ((s.start n).2.blocking.lookup name) ≤ _
    rw [Nat.zero_add]
    rcases blocking_start s n with hb | hb
    · rw [hb]
    · by_cases hn : name = n
      · rw [hb, hn, lookup_answered_self, allowance_attempt]
        exact Nat.zero_le _
      · rw [hb, lookup_answered_ne hn]
  | drop n =>
    show 0 + allowance ((s.drop n).2.blocking.lookup name) ≤ _
    rw [blocking_drop, Nat.zero_add]
  | _ => exact (Nat.zero_add _).le

end Session

/-! ## Runs -/

section Runs

variable [BEq α] (capacity : Nat) (cs : List (Command α))

theorem run_enrolled : Enrolled (run capacity cs).queue (run capacity cs).events :=
  run_induction (P := Enrolled) (enrolled_empty capacity) (fun _ _ hT h => h.step hT) cs

/-- Who is a consumer of the session with a ticket waits. -/
theorem waits_of_mem_tickets
    (ht : t ∈ tickets (run capacity cs).session.waiters
      ++ tickets (run capacity cs).session.blocking) :
    (run capacity cs).Waits t :=
  (isLive_iff_waits capacity cs t).mp ((run_sound capacity cs).owned.live t ht)

/-- **A consumer registers once.** After every run, a consumer that registered and still waits
either listens or holds a value, and is never deserted; listeners stand in the order of
registration, each once. So a consumer that is asked keeps its ticket until it takes its value:
the waiter that was made of a name registers at most once, however often it is asked, and a
consumer that blocks never registers when it wakes up. -/
theorem registers_once :
    (∀ t, (run capacity cs).Waits t →
      Xor ((run capacity cs).queue.Listens t) ((run capacity cs).queue.Holds t) ∧
        ¬ (run capacity cs).queue.Deserted t ∧
        ((run capacity cs).queue.poll (.registered t) =
            (.pending (.registered t), (run capacity cs).queue) ∨
          ∃ v, (run capacity cs).queue.poll (.registered t) =
            (.done (.ok v), (run capacity cs).queue.close t))) ∧
      (∀ t ∈ tickets (run capacity cs).session.waiters ++
        tickets (run capacity cs).session.blocking, (run capacity cs).Waits t) ∧
      (run capacity cs).queue.listeners.Nodup ∧
      (run capacity cs).queue.listeners.Sublist (run capacity cs).registered ∧
      (run capacity cs).registered.Nodup ∧
      (∀ name ds, (∀ c ∈ ds, c.makes name = false) →
        ((run capacity cs).session.enlisted (Command.polls name) ds).length ≤ 1) ∧
      ∀ name, (History.start capacity).session.enlisted (Command.joins name) cs = [] := by
  have h := run_sound capacity cs
  have he := run_enrolled capacity cs
  refine ⟨fun t ht => ?_, fun t => waits_of_mem_tickets capacity cs, ?_, he.listeners, ?_,
    fun name ds hd => ?_, fun name => ?_⟩
  · have hl := (isLive_iff_waits capacity cs t).mpr ht
    exact ⟨h.queue.listens_or_holds hl, h.queue.not_deserted t, h.queue.poll_registered hl⟩
  · exact h.queue.ordered.imp Nat.ne_of_lt
  · exact he.rising.imp Nat.ne_of_lt
  · have hle := Session.length_enlisted_le (Command.polls name) (fun s => s.waiters.lookup name)
      (fun h c hc => Session.allowance_waiter name h c hc) h hd
    refine hle.trans ?_
    unfold allowance
    split <;> simp
  · have hle := Session.length_enlisted_le (Command.joins name) (fun s => s.blocking.lookup name)
      (fun h c _ => Session.allowance_blocking name h c) (run_sound capacity [])
      fun c (_ : c ∈ cs) => trivial
    exact List.eq_nil_of_length_eq_zero (Nat.le_zero.mp hle)

end Runs

end Depot.Queue
