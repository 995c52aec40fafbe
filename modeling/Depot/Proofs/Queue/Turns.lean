import Depot.Proofs.Queue.History

/-!
# Consumers are served in turn

A consumer takes its turn when it takes a stored value at once, or when it registers to wait; one
that is dropped before anything was handed to it gives its turn up. Where nothing is removed or
moved, and nobody is dropped who holds a value, the queue is a plain line: the first turn gets the
first value, the second the second, and so on, whether a value is stored first or handed over
directly, and whatever dead listeners stand between.

* `turns` are the turns in the order in which they were taken, less those given up; `given?` is
  the value that a turn got, which may still be in the consumer's channel.
* `InTurn` is the invariant: a turn has the value of its own number as soon as that came in, the
  stored values are those behind the last turn, and the turns that wait for a value are the live
  listeners, in their order.

Results:
* `InTurn.step`: every transition that is `Orderly` keeps it.
* `served_in_turn`: **the turns served are a prefix of all turns, the `k`-th of them has the
  `k`-th value, and the queue stores the values that came in less as many in front.**

Out of scope: consumers that are dropped while they hold a value (`Depot.Proofs.Queue.Arrival`).
-/

namespace Depot.Queue

variable {α : Type} {q q' : Queue α} {t u : Ticket} {v : α} {e : Option (Event α)}
  {es : List (Event α)}

/-! ## Turns -/

/-- A consumer's claim to a value. -/
inductive Turn (α : Type) where
  /-- It took a stored value at once. -/
  | atOnce (v : α)
  /-- It registered. -/
  | waiter (t : Ticket)
  deriving DecidableEq

variable {c : Turn α}

namespace Event

/-- The turn that was taken. -/
def turn? : Event α → Option (Turn α)
  | .taken v => some (.atOnce v)
  | .registered t => some (.waiter t)
  | _ => none

/-- The turn that was given up, by its ticket. -/
def withdrawn? : Event α → Option Ticket
  | .withdrawn t => some t
  | _ => none

/-- The value that a consumer took out of its channel. -/
def received? : Event α → Option (Ticket × α)
  | .received t v => some (t, v)
  | _ => none

/-- Whether a consumer was dropped that held a value. -/
def isRecall : Event α → Bool
  | .passedOn _ _ | .putBack _ _ => true
  | _ => false

end Event

/-- Whether a turn was not given up. -/
def Turn.kept (gone : List Ticket) : Turn α → Bool
  | .atOnce _ => true
  | .waiter t => decide (t ∉ gone)

/-- The turns that were taken and not given up, in their order. -/
def turns (es : List (Event α)) : List (Turn α) :=
  (es.filterMap Event.turn?).filter (Turn.kept (es.filterMap Event.withdrawn?))

/-- The value that a turn got, if it got one. -/
def given? (q : Queue α) (es : List (Event α)) : Turn α → Option α
  | .atOnce v => some v
  | .waiter t => ((es.filterMap Event.received?).lookup t).or (q.channel? t).join

/-- Nothing was removed or moved, and nobody was dropped who held a value. -/
def Orderly (e : Event α) : Prop :=
  e.isReorder = false ∧ e.isRecall = false

/-- The turns of a history. -/
def History.turns (h : History α) : List (Turn α) :=
  Queue.turns h.events

/-- The value that a turn got. -/
def History.given? (h : History α) : Turn α → Option α :=
  Queue.given? h.queue h.events

/-- The turns that got a value. -/
def History.served (h : History α) : List (Turn α) :=
  h.turns.filter fun c => (h.given? c).isSome

/-! ## One event more -/

theorem turns_concat {e : Event α} (ht : e.turn? = none) (hw : e.withdrawn? = none) :
    turns (es ++ [e]) = turns es := by
  unfold turns
  rw [filterMap_concat_none ht, filterMap_concat_none hw]

theorem turns_taken (es : List (Event α)) (v : α) :
    turns (es ++ [.taken v]) = turns es ++ [.atOnce v] := by
  have ht := filterMap_concat_some (show (Event.taken v).turn? = some (.atOnce v) from rfl) es
  have hw := filterMap_concat_none (show (Event.taken v).withdrawn? = none from rfl) es
  unfold turns
  rw [ht, hw, List.filter_append]
  rfl

theorem turns_registered (hn : t ∉ es.filterMap Event.withdrawn?) :
    turns (es ++ [.registered t]) = turns es ++ [.waiter t] := by
  have ht := filterMap_concat_some
    (show (Event.registered t : Event α).turn? = some (.waiter t) from rfl) es
  have hw := filterMap_concat_none
    (show (Event.registered t : Event α).withdrawn? = none from rfl) es
  have hk : Turn.kept (es.filterMap Event.withdrawn?) (.waiter t : Turn α) = true :=
    decide_eq_true hn
  unfold turns
  rw [ht, hw, List.filter_append, List.filter_cons_of_pos hk, List.filter_nil]

theorem turns_withdrawn (es : List (Event α)) (t : Ticket) :
    turns (es ++ [.withdrawn t]) = (turns es).filter (Turn.kept [t]) := by
  have ht := filterMap_concat_none (show (Event.withdrawn t : Event α).turn? = none from rfl) es
  have hw := filterMap_concat_some
    (show (Event.withdrawn t : Event α).withdrawn? = some t from rfl) es
  unfold turns
  rw [ht, hw, List.filter_filter]
  refine List.filter_congr fun c _ => ?_
  cases c with
  | atOnce v => rfl
  | waiter u => simp [Turn.kept, Bool.and_comm]

theorem given?_concat {e : Event α} (hr : e.received? = none) (c : Turn α) :
    given? q (es ++ [e]) c = given? q es c := by
  cases c with
  | atOnce v => rfl
  | waiter t => simp [given?, List.filterMap_append, hr]

theorem given?_waiter (q : Queue α) (es : List (Event α)) (t : Ticket) :
    given? q es (.waiter t) = ((es.filterMap Event.received?).lookup t).or (q.channel? t).join :=
  rfl

/-- What a turn got can be seen in the channels. -/
theorem given?_congr (h : ∀ t, (q'.channel? t).join = (q.channel? t).join) (c : Turn α) :
    given? q' es c = given? q es c := by
  cases c with
  | atOnce v => rfl
  | waiter t => rw [given?_waiter, given?_waiter, h]

/-- A value that is handed to another consumer leaves a turn as it is. -/
theorem given?_deliver (hc : c ≠ .waiter t) (v : α) :
    given? (q.deliver t v) es c = given? q es c := by
  cases c with
  | atOnce w => rfl
  | waiter u =>
    have hu : u ≠ t := fun e => hc (e ▸ rfl)
    rw [given?_waiter, given?_waiter, channel?_deliver, if_neg hu]

/-- So does another consumer that goes. -/
theorem given?_close (hc : c ≠ .waiter t) : given? (q.close t) es c = given? q es c := by
  cases c with
  | atOnce w => rfl
  | waiter u =>
    have hu : u ≠ t := fun e => hc (e ▸ rfl)
    rw [given?_waiter, given?_waiter, channel?_close, if_neg hu]

/-! ## Turns and channels -/

/-- A consumer that did not depart took nothing out of its channel. -/
theorem lookup_received (ht : ∀ e ∈ es, e.departs ≠ some t) :
    (es.filterMap Event.received?).lookup t = none := by
  rw [List.lookup_eq_none_iff]
  intro p hp
  obtain ⟨e, he, hr⟩ := List.mem_filterMap.mp hp
  rw [bne_iff_ne]
  rintro rfl
  cases e with
  | received t v =>
    obtain rfl := Option.some.inj hr
    exact ht _ he rfl
  | _ => exact absurd hr (by simp [Event.received?])

theorem not_mem_withdrawn (ht : ∀ e ∈ es, e.departs ≠ some t) :
    t ∉ es.filterMap Event.withdrawn? := by
  intro hm
  obtain ⟨e, he, hw⟩ := List.mem_filterMap.mp hm
  cases e with
  | withdrawn u => exact ht _ he hw
  | _ => exact absurd hw (by simp [Event.withdrawn?])

namespace Attended

theorem given?_of_live (h : Attended q es) (hl : q.isLive t = true) :
    given? q es (.waiter t) = (q.channel? t).join := by
  rw [given?_waiter, lookup_received ((h.live t).mp hl).2, Option.none_or]

/-- Nothing was given to a consumer that listens. -/
theorem given?_of_listening (h : Attended q es) (hq : q.Sound) (ht : t ∈ q.liveListeners) :
    given? q es (.waiter t) = none := by
  rw [h.given?_of_live (mem_liveListeners.mp ht).2, hq.channel?_of_live ht]
  rfl

/-- A consumer that listens has the value that is handed to it. -/
theorem given?_handed (h : Attended q es) (hq : q.Sound) (ht : t ∈ q.liveListeners) (v : α) :
    given? (q.deliver t v) es (.waiter t) = some v := by
  have hlive := (mem_liveListeners.mp ht).2
  rw [given?_waiter, lookup_received ((h.live t).mp hlive).2, channel?_deliver, if_pos rfl,
    hq.channel?_of_live ht]
  rfl

/-- Nothing is known yet of the next ticket. -/
theorem next (h : Attended q es) : ∀ e ∈ es, e.departs ≠ some q.nextTicket :=
  fun e he ht => Nat.lt_irrefl _ (h.departed e he _ ht)

end Attended

/-! ## The invariant -/

/-- One turn more: if it has the value of its number, all turns have. -/
theorem due_concat {β γ : Type} {g : β → Option γ} {xs : List β} {ys : List γ} {b : β}
    (h : ∀ (k : Nat) (c : β), xs[k]? = some c → g c = ys[k]?) (hb : g b = ys[xs.length]?)
    (k : Nat) (c : β) (hk : (xs ++ [b])[k]? = some c) : g c = ys[k]? := by
  rcases Nat.lt_trichotomy k xs.length with hlt | rfl | hgt
  · rw [List.getElem?_append_left hlt] at hk
    exact h k c hk
  · rw [List.getElem?_concat_length] at hk
    exact Option.some.inj hk ▸ hb
  · rw [List.getElem?_eq_none (by simp; omega)] at hk
    exact absurd hk (by simp)

/-- The queue and its channels follow from the values that came in and the turns taken. -/
structure InTurn (q : Queue α) (es : List (Event α)) : Prop where
  /-- A turn has the value of its own number as soon as that came in. -/
  due : ∀ (k : Nat) (c : Turn α), (turns es)[k]? = some c →
    given? q es c = (es.filterMap Event.enqueued?)[k]?
  /-- The stored values are those behind the last turn. -/
  stored : q.items = (es.filterMap Event.enqueued?).drop (turns es).length
  /-- The turns behind the last value are the live listeners. -/
  waiting : (turns es).drop (es.filterMap Event.enqueued?).length = q.liveListeners.map .waiter

namespace InTurn

theorem store (h : InTurn q es) (hl : q.liveListeners = []) (v : α) :
    InTurn { q with items := q.items ++ [v], listeners := [] } (es ++ [.enqueued v]) := by
  have ht : turns (es ++ [.enqueued v]) = turns es := turns_concat rfl rfl
  have hw := h.waiting
  rw [hl, List.map_nil, List.drop_eq_nil_iff] at hw
  refine ⟨fun k c hk => ?_, ?_, ?_⟩
  · rw [ht] at hk
    have hlt := (List.getElem?_eq_some_iff.mp hk).1
    rw [given?_concat rfl, List.filterMap_append, List.getElem?_append_left (by omega)]
    exact (given?_congr (fun _ => rfl) c).trans (h.due k c hk)
  · rw [ht, List.filterMap_append, List.drop_append_of_le_length hw, ← h.stored]
    rfl
  · rw [ht, List.filterMap_append, List.drop_eq_nil_of_le (by simp; omega)]
    rfl

/-- A turn that waits has nothing yet, so its number is behind the values. -/
theorem length_le (h : InTurn q es) (hn : given? q es c = none) {k : Nat}
    (hk : (turns es)[k]? = some c) : (es.filterMap Event.enqueued?).length ≤ k := by
  rw [← List.getElem?_eq_none_iff, ← h.due k c hk, hn]

/-- The turns behind the values are those that wait. -/
theorem getElem?_waiting (h : InTurn q es) (i : Nat) :
    (turns es)[(es.filterMap Event.enqueued?).length + i]? =
      (q.liveListeners.map Turn.waiter)[i]? := by
  rw [← h.waiting, List.getElem?_drop]

/-- The first turn without a value is that of the oldest consumer that waits. -/
theorem getElem?_first (h : InTurn q es) {ts : List Ticket} (hl : q.liveListeners = t :: ts) :
    (turns es)[(es.filterMap Event.enqueued?).length]? = some (.waiter t) := by
  have hw := h.getElem?_waiting 0
  rwa [hl, List.map_cons, List.getElem?_cons_zero] at hw

/-- The value that is handed over is the one of that turn; the others are as they were. -/
theorem due_deliver (h : InTurn q es) (ha : Attended q es) (hq : q.Sound) (v : α)
    {ts : List Ticket} (hl : q.liveListeners = t :: ts) (ho : ∀ u ∈ ts, t < u) (k : Nat)
    (c : Turn α) (hk : (turns es)[k]? = some c) :
    given? (q.deliver t v) es c = (es.filterMap Event.enqueued? ++ [v])[k]? := by
  have ht : t ∈ q.liveListeners := hl ▸ List.mem_cons_self
  rcases Nat.lt_trichotomy k (es.filterMap Event.enqueued?).length with hlt | rfl | hgt
  · have hc : c ≠ .waiter t := by
      rintro rfl
      exact absurd (h.length_le (ha.given?_of_listening hq ht) hk) (Nat.not_le.mpr hlt)
    rw [List.getElem?_append_left hlt, ← h.due k c hk]
    exact given?_deliver hc v
  · obtain rfl := Option.some.inj (hk.symm.trans (h.getElem?_first hl))
    rw [List.getElem?_concat_length]
    exact ha.given?_handed hq ht v
  · -- Another consumer waits, which registered later.
    obtain ⟨i, rfl⟩ := Nat.exists_eq_add_of_lt hgt
    rw [Nat.add_assoc, h.getElem?_waiting, hl, List.map_cons, List.getElem?_cons_succ] at hk
    obtain ⟨u, hu, rfl⟩ := List.mem_map.mp (List.mem_of_getElem? hk)
    have hne : (.waiter u : Turn α) ≠ .waiter t := fun e =>
      Nat.ne_of_gt (ho u hu) (Turn.waiter.inj e)
    have hw : u ∈ q.liveListeners := hl ▸ List.mem_cons_of_mem t hu
    rw [List.getElem?_eq_none (by simp), ← ha.given?_of_listening hq hw]
    exact given?_deliver hne v

theorem handOver (h : InTurn q es) (ha : Attended q es) (hq : q.Sound) (v : α) {rest : List Ticket}
    (hs : t :: rest <:+ q.listeners) (hl : q.liveListeners = t :: rest.filter q.isLive) :
    InTurn { q.deliver t v with listeners := rest } (es ++ [Event.enqueued v]) := by
  have hturns : turns (es ++ [Event.enqueued v]) = turns es := turns_concat rfl rfl
  have hvalues : (es ++ [Event.enqueued v]).filterMap Event.enqueued? =
      es.filterMap Event.enqueued? ++ [v] := filterMap_concat_some (f := Event.enqueued?) rfl es
  have hlive : ({ q.deliver t v with listeners := rest } : Queue α).liveListeners =
      rest.filter q.isLive := List.filter_congr fun u _ => isLive_deliver q t u v
  have hlater : ∀ u ∈ rest.filter q.isLive, t < u := fun u hu =>
    (List.pairwise_cons.mp (hq.ordered.sublist hs.sublist)).1 u (List.mem_of_mem_filter hu)
  have hlt := (List.getElem?_eq_some_iff.mp (h.getElem?_first hl)).1
  refine ⟨fun k c hk => ?_, ?_, ?_⟩
  · rw [hturns] at hk
    rw [hvalues, given?_concat rfl]
    exact h.due_deliver ha hq v hl hlater k c hk
  · rw [hturns, hvalues, List.drop_eq_nil_of_le (by simp; omega)]
    exact hq.items_eq_nil (hs.subset List.mem_cons_self)
  · rw [hturns, hvalues, hlive, List.length_append, ← List.drop_drop, h.waiting, hl]
    rfl

theorem take (h : InTurn q es) (hq : q.Sound) {rest : List α} (hi : q.items = v :: rest) :
    InTurn { q with items := rest } (es ++ [Event.taken v]) := by
  have hl : q.liveListeners = [] := by
    rw [liveListeners, hq.listeners_eq_nil (by simp [hi]), List.filter_nil]
  have hvalues : (es ++ [Event.taken v]).filterMap Event.enqueued? =
      es.filterMap Event.enqueued? := filterMap_concat_none rfl es
  have hs := h.stored
  rw [hi] at hs
  have hlt : (turns es).length < (es.filterMap Event.enqueued?).length := by
    rw [← Nat.not_le, ← List.drop_eq_nil_iff, ← hs]
    exact List.cons_ne_nil v rest
  refine ⟨?_, ?_, ?_⟩
  · intro k c hk
    rw [hvalues, given?_concat rfl]
    rw [turns_taken] at hk
    refine due_concat (fun k c hk => (given?_congr (fun _ => rfl) c).trans (h.due k c hk)) ?_ k c hk
    rw [← List.head?_drop, ← hs]
    rfl
  · rw [turns_taken, hvalues, List.length_append, ← List.drop_drop, ← hs]
    rfl
  · rw [turns_taken, hvalues, List.drop_eq_nil_of_le (by simp; omega)]
    exact (congrArg (List.map Turn.waiter) hl).symm

theorem register (h : InTurn q es) (ha : Attended q es) (hq : q.Sound) (hi : q.items = []) :
    InTurn q.enrol (es ++ [Event.registered q.nextTicket]) := by
  have hvalues : (es ++ [Event.registered q.nextTicket]).filterMap Event.enqueued? =
      es.filterMap Event.enqueued? := filterMap_concat_none rfl es
  have hturns := turns_registered (not_mem_withdrawn ha.next)
  have hs := h.stored
  rw [hi, eq_comm, List.drop_eq_nil_iff] at hs
  have hg : ∀ c, given? q.enrol es c = given? q es c := given?_congr fun t => by
    rw [channel?_enrol_eq]
    cases q.channel? t with
    | some o => rfl
    | none => by_cases ht : t = q.nextTicket <;> simp [ht]
  refine ⟨?_, ?_, ?_⟩
  · intro k c hk
    rw [hvalues, given?_concat rfl, hg]
    rw [hturns] at hk
    refine due_concat h.due ?_ k c hk
    rw [List.getElem?_eq_none hs, given?_waiter, lookup_received ha.next, hq.channel?_nextTicket]
    rfl
  · rw [hturns, hvalues, List.drop_eq_nil_of_le (by simp; omega)]
    exact hi
  · rw [hturns, hvalues, List.drop_append_of_le_length hs, h.waiting, liveListeners_enrol,
      List.map_append]
    rfl

theorem receive (h : InTurn q es) (ha : Attended q es) (hq : q.Sound)
    (hc : q.channel? t = some (some v)) : InTurn (q.close t) (es ++ [Event.received t v]) := by
  have hlive := isLive_of_channel? hc
  have hturns : turns (es ++ [Event.received t v]) = turns es := turns_concat rfl rfl
  have hvalues : (es ++ [Event.received t v]).filterMap Event.enqueued? =
      es.filterMap Event.enqueued? := filterMap_concat_none rfl es
  have hl : (q.close t).liveListeners = q.liveListeners := by
    rw [liveListeners_close, List.filter_eq_self]
    intro u hu
    rw [bne_iff_ne]
    rintro rfl
    exact hq.served u v hc (mem_liveListeners.mp hu).1
  have hg : ∀ c, given? (q.close t) (es ++ [Event.received t v]) c = given? q es c := by
    intro c
    cases c with
    | atOnce w => rfl
    | waiter u =>
      rw [given?_waiter, filterMap_concat_some (f := Event.received?) rfl, List.lookup_append]
      by_cases hu : u = t
      · rw [hu, lookup_received ((ha.live t).mp hlive).2, ha.given?_of_live hlive, hc,
          List.lookup_cons_self]
        rfl
      · rw [List.lookup_cons, beq_eq_false_iff_ne.mpr hu, channel?_close, if_neg hu, given?_waiter]
        simp
  refine ⟨fun k c hk => ?_, ?_, ?_⟩
  · rw [hvalues, hg]
    exact h.due k c (hturns ▸ hk)
  · rw [hturns, hvalues, ← h.stored]
    rfl
  · rw [hturns, hvalues, h.waiting, hl]

/-- While somebody waits every value has its turn. -/
theorem length_le_turns (h : InTurn q es) (ht : t ∈ q.liveListeners) :
    (es.filterMap Event.enqueued?).length ≤ (turns es).length := by
  refine Nat.le_of_lt (Nat.lt_of_not_le fun hle => ?_)
  have hw := h.waiting
  rw [List.drop_eq_nil_of_le hle, eq_comm, List.map_eq_nil_iff] at hw
  exact List.ne_nil_of_mem ht hw

/-- Where a consumer gives its turn up, those that have a value keep theirs. -/
theorem filter_take_turns (h : InTurn q es) (hn : given? q es (.waiter t) = none) :
    ((turns es).take (es.filterMap Event.enqueued?).length).filter (Turn.kept [t]) =
      (turns es).take (es.filterMap Event.enqueued?).length := by
  refine List.filter_eq_self.mpr fun c hc => ?_
  obtain ⟨k, hk⟩ := List.mem_iff_getElem?.mp hc
  rw [List.getElem?_take] at hk
  split_ifs at hk with hlt
  cases c with
  | atOnce w => rfl
  | waiter u =>
    refine decide_eq_true fun hu => Nat.not_le.mpr hlt (h.length_le ?_ hk)
    rwa [List.mem_singleton.mp hu]

/-- The others that wait move up. -/
theorem filter_drop_turns (h : InTurn q es) (t : Ticket) :
    ((turns es).drop (es.filterMap Event.enqueued?).length).filter (Turn.kept [t]) =
      (q.close t).liveListeners.map Turn.waiter := by
  rw [h.waiting, List.filter_map, liveListeners_close]
  refine congrArg (List.map Turn.waiter) (List.filter_congr fun u _ => ?_)
  by_cases hu : u = t <;> simp [Turn.kept, hu]

theorem withdraw (h : InTurn q es) (ha : Attended q es) (hq : q.Sound)
    (hc : q.channel? t = some none) : InTurn (q.close t) (es ++ [Event.withdrawn t]) := by
  have ht : t ∈ q.liveListeners := hq.mem_liveListeners_iff.mpr hc
  have hn := ha.given?_of_listening hq ht
  have hvalues : (es ++ [Event.withdrawn t]).filterMap Event.enqueued? =
      es.filterMap Event.enqueued? := filterMap_concat_none rfl es
  have hturns : turns (es ++ [Event.withdrawn t]) =
      (turns es).take (es.filterMap Event.enqueued?).length ++
        (q.close t).liveListeners.map Turn.waiter := by
    rw [turns_withdrawn, ← h.filter_take_turns hn, ← h.filter_drop_turns t, ← List.filter_append,
      List.take_append_drop]
  have hlen : ((turns es).take (es.filterMap Event.enqueued?).length).length =
      (es.filterMap Event.enqueued?).length := List.length_take_of_le (h.length_le_turns ht)
  refine ⟨fun k c hk => ?_, ?_, ?_⟩
  · rw [hvalues, given?_concat rfl]
    rw [hturns] at hk
    rcases Nat.lt_or_ge k (es.filterMap Event.enqueued?).length with hlt | hge
    · rw [List.getElem?_append_left (hlen.symm ▸ hlt), List.getElem?_take_of_lt hlt] at hk
      rw [← h.due k c hk]
      refine given?_close fun e => ?_
      exact Nat.not_le.mpr hlt (h.length_le hn (e ▸ hk))
    · rw [List.getElem?_append_right (hlen.symm ▸ hge)] at hk
      obtain ⟨u, hu, rfl⟩ := List.mem_map.mp (List.mem_of_getElem? hk)
      rw [liveListeners_close, List.mem_filter, bne_iff_ne] at hu
      rw [List.getElem?_eq_none hge, given?_close fun e => hu.2 (Turn.waiter.inj e)]
      exact ha.given?_of_listening hq hu.1
  · rw [hturns, hvalues, List.drop_eq_nil_of_le (by rw [List.length_append]; omega)]
    exact hq.items_eq_nil (mem_liveListeners.mp ht).1
  · rw [hturns, hvalues, List.drop_left' hlen]

/-- Dead listeners are dropped. -/
theorem purge (h : InTurn q es) : InTurn { q with listeners := q.liveListeners } es := by
  have hl : ({ q with listeners := q.liveListeners } : Queue α).liveListeners = q.liveListeners :=
    List.filter_eq_self.mpr fun t ht => (mem_liveListeners.mp ht).2
  exact ⟨fun k c hk => (given?_congr (fun _ => rfl) c).trans (h.due k c hk), h.stored,
    h.waiting.trans (congrArg (List.map Turn.waiter) hl.symm)⟩

/-- **Every orderly transition serves the consumers in turn.** -/
theorem step (h : InTurn q es) (ha : Attended q es) (hq : q.Sound) (hT : Transition q e q')
    (ho : ∀ e' ∈ e.toList, Orderly e') : InTurn q' (es ++ e.toList) := by
  cases hT with
  | stay => rwa [Option.toList_none, List.append_nil]
  | store v hl => exact h.store hl v
  | handOver v hs hl => exact h.handOver ha hq v hs hl
  | take hi => exact h.take hq hi
  | register hi hc => exact h.register ha hq hi
  | refuse hi hc =>
    rw [Option.toList_none, List.append_nil]
    exact h.purge
  | receive hc => exact h.receive ha hq hc
  | withdraw hc => exact h.withdraw ha hq hc
  | passOn hc hs hl => exact absurd (ho _ List.mem_cons_self).2 (by simp [Event.isRecall])
  | putBack hc hl => exact absurd (ho _ List.mem_cons_self).2 (by simp [Event.isRecall])
  | discard hi => exact absurd (ho _ List.mem_cons_self).1 (by simp [Event.isReorder])
  | rearrange hi hp => exact absurd (ho _ List.mem_cons_self).1 (by simp [Event.isReorder])

/-- The turns that got a value are the first ones, as many as there are values. -/
theorem served_eq_take (h : InTurn q es) :
    (turns es).filter (fun c => (given? q es c).isSome) =
      (turns es).take (es.filterMap Event.enqueued?).length := by
  conv_lhs => rw [← List.take_append_drop (es.filterMap Event.enqueued?).length (turns es)]
  have hfirst : ∀ c ∈ (turns es).take (es.filterMap Event.enqueued?).length,
      (given? q es c).isSome = true := by
    intro c hc
    obtain ⟨k, hk⟩ := List.mem_iff_getElem?.mp hc
    rw [List.getElem?_take] at hk
    split_ifs at hk with hlt
    rw [h.due k c hk, List.getElem?_eq_getElem hlt]
    rfl
  have hrest : ∀ c ∈ (turns es).drop (es.filterMap Event.enqueued?).length,
      ¬ (given? q es c).isSome = true := by
    intro c hc
    obtain ⟨k, hk⟩ := List.mem_iff_getElem?.mp hc
    rw [List.getElem?_drop] at hk
    rw [h.due _ c hk, List.getElem?_eq_none (Nat.le_add_right _ _)]
    exact Bool.false_ne_true
  rw [List.filter_append, List.filter_eq_self.mpr hfirst, List.filter_eq_nil_iff.mpr hrest,
    List.append_nil]

end InTurn

/-! ## Runs -/

section Runs

variable [BEq α] (capacity : Nat) (cs : List (Command α))

/-- The invariant holds after every run that is orderly. -/
theorem run_inTurn (ho : ∀ e ∈ (run capacity cs).events, Orderly e) :
    InTurn (run capacity cs).queue (run capacity cs).events := by
  have h0 : InTurn (empty capacity : Queue α) [] :=
    ⟨fun k c hk => absurd hk (by simp [turns]), rfl, rfl⟩
  refine run_induction (P := fun q es => (∀ e ∈ es, Orderly e) → InTurn q es) (fun _ => h0) ?_ cs ho
  intro q e q' es hq ha hT h ho
  exact (h fun e' he' => ho e' (List.mem_append_left _ he')).step ha hq hT fun e' he' =>
    ho e' (List.mem_append_right _ he')

/-- **Consumers are served in turn.** Let values be enqueued and asked for, and let consumers be
dropped as long as they hold nothing. Then the turns that are served come before all others, the
`k`-th of them has the `k`-th value, and the queue stores the values that came in without those in
front that were served. -/
theorem served_in_turn (hc : ∀ c ∈ cs, c.keepsOrder = true)
    (hr : ∀ e ∈ (run capacity cs).events, e.isRecall = false) :
    (run capacity cs).served <+: (run capacity cs).turns ∧
      (∀ (k : Nat) (c : Turn α), (run capacity cs).served[k]? = some c →
        (run capacity cs).given? c = (values cs)[k]?) ∧
      (run capacity cs).queue.items = (values cs).drop (run capacity cs).served.length := by
  have h := run_inTurn capacity cs fun e he => ⟨run_isReorder capacity hc e he, hr e he⟩
  have hs : (run capacity cs).served = (run capacity cs).turns.take (values cs).length := by
    rw [← enqueued_run capacity cs]
    exact h.served_eq_take
  have hv := enqueued_run capacity cs
  refine ⟨hs ▸ List.take_prefix _ _, fun k c hk => ?_, ?_⟩
  · rw [hs, List.getElem?_take] at hk
    split_ifs at hk
    rw [← hv]
    exact h.due k c hk
  · rw [h.stored, hs, List.length_take, ← hv]
    rcases Nat.le_total (run capacity cs).turns.length (run capacity cs).enqueued.length with
      hle | hle
    · rw [Nat.min_eq_right hle]
      rfl
    · rw [Nat.min_eq_left hle, List.drop_length]
      exact List.drop_eq_nil_of_le hle

end Runs

/-- One consumer finds a value, the next one gives up while another waits behind it, and two
values come in. -/
def partingRun : List (Command Nat) :=
  [.enqueue 1, .start "x", .wait "a", .poll "a", .start "y", .drop "a", .enqueue 2, .enqueue 3]

theorem served_in_turn_partingRun :
    (run 2 partingRun).served = [.atOnce 1, .waiter 1] ∧ (run 2 partingRun).queue.items = [3] := by
  have hs : (run 2 partingRun).served = [.atOnce 1, .waiter 1] := by decide
  obtain ⟨-, -, hi⟩ := served_in_turn 2 partingRun (by decide) (by decide)
  exact ⟨hs, by rw [hi, hs]; rfl⟩

end Depot.Queue
