import Depot.Proofs.Lookup
import Depot.Queue.Session
import Mathlib.Data.List.Nodup
import Mathlib.Data.List.TakeWhile

/-!
# Queues between operations

What holds of a queue whenever no operation is under way, and the few changes all operations are
made of.

* `liveListeners` are the listeners whose consumer still waits, oldest first. A value that is
  offered goes to the first of them (`handOff_of_live_cons`), and to nobody if there is none
  (`handOff_of_live_nil`).
* `held` are the values that were handed to consumers and not taken yet.
* `Sound` is the invariant: values and listeners exclude each other, listeners stand in the order
  of registration, and a consumer that waits is registered exactly as long as nothing was handed
  to it.

Results: the changes keep `Sound`: a consumer goes (`Sound.close`), a value is handed over
(`Sound.handOver`), nobody listens (`Sound.unheard`), the values change while there are some
(`Sound.setItems`), listeners without a consumer are dropped (`Sound.purge`), a consumer registers
(`Sound.enrol`).

Out of scope: the states inside an operation, which the lock hides.
-/

namespace Depot.Queue

variable {α : Type} {q : Queue α} {t u : Ticket} {v : α}

/-! ## Channels -/

theorem lookup_map_set {β : Type} (t u : Ticket) (b : β) (l : List (Ticket × β)) :
    (l.map fun c => if c.1 = t then (t, b) else c).lookup u =
      if u = t then (l.lookup t).map (fun _ => b) else l.lookup u := by
  have hset : (fun c : Ticket × β => if c.1 = t then (t, b) else c)
      = fun c => if c.1 = t then (c.1, b) else c := by
    funext c
    split
    · next h => rw [h]
    · rfl
  rw [hset, lookup_map_if (fun _ => b) t u l]
  split
  · next h => rw [h]
  · rfl

theorem channel?_close (q : Queue α) (t u : Ticket) :
    (q.close t).channel? u = if u = t then none else q.channel? u :=
  lookup_filter_ne t u q.channels

theorem channel?_deliver (q : Queue α) (t u : Ticket) (v : α) :
    (q.deliver t v).channel? u =
      if u = t then (q.channel? t).map (fun _ => some v) else q.channel? u :=
  lookup_map_set t u (some v) q.channels

theorem isLive_close (q : Queue α) (t u : Ticket) :
    (q.close t).isLive u = (q.isLive u && u != t) := by
  unfold isLive
  rw [channel?_close]
  by_cases h : u = t <;> simp [h]

theorem isLive_deliver (q : Queue α) (t u : Ticket) (v : α) :
    (q.deliver t v).isLive u = q.isLive u := by
  unfold isLive
  rw [channel?_deliver]
  by_cases h : u = t
  · rw [if_pos h, Option.isSome_map, h]
  · rw [if_neg h]

theorem isLive_of_channel? {o : Option α} (h : q.channel? t = some o) : q.isLive t = true := by
  unfold isLive
  rw [h]
  rfl

theorem mem_keys_iff (t : Ticket) : t ∈ q.channels.map Prod.fst ↔ q.isLive t = true := by
  unfold isLive channel?
  rw [List.lookup_isSome_iff, List.mem_map]
  refine exists_congr fun c => and_congr Iff.rfl ?_
  rw [beq_iff_eq, eq_comm]

/-- The values that were handed to consumers that still wait. -/
def held (q : Queue α) : List α :=
  q.channels.filterMap Prod.snd

/-! ## Live listeners -/

/-- The listeners whose consumer still waits, oldest first. -/
def liveListeners (q : Queue α) : List Ticket :=
  q.listeners.filter q.isLive

theorem mem_liveListeners : t ∈ q.liveListeners ↔ t ∈ q.listeners ∧ q.isLive t = true :=
  List.mem_filter

theorem liveListeners_close (q : Queue α) (t : Ticket) :
    (q.close t).liveListeners = q.liveListeners.filter (· != t) := by
  rw [liveListeners, liveListeners, List.filter_filter]
  refine List.filter_congr fun u _ => ?_
  rw [isLive_close, Bool.and_comm]

/-- A value that is offered where no consumer waits comes back, and all listeners are dropped. -/
theorem handOff_of_live_nil (h : q.liveListeners = []) (v : α) :
    q.handOff v = (false, { q with listeners := [] }) := by
  have hd : (q.listeners.dropWhile fun t => !q.isLive t) = [] := by
    rw [List.dropWhile_eq_nil_iff]
    intro t ht
    have := List.filter_eq_nil_iff.mp h t ht
    simpa using this
  unfold handOff
  rw [hd]

/-- A value that is offered goes to the oldest consumer that waits; the listeners behind it
remain. -/
theorem handOff_of_live_cons {ts : List Ticket} (h : q.liveListeners = t :: ts) (v : α) :
    ∃ rest, t :: rest <:+ q.listeners ∧ rest.filter q.isLive = ts ∧
      q.handOff v = (true, { q.deliver t v with listeners := rest }) := by
  obtain ⟨dead, rest, hl, hdead, ht, hts⟩ := List.filter_eq_cons_iff.mp h
  refine ⟨rest, ⟨dead, hl.symm⟩, hts, ?_⟩
  have hd : (q.listeners.dropWhile fun t => !q.isLive t) = t :: rest := by
    rw [hl, List.dropWhile_append_of_pos fun u hu => by simpa using hdead u hu]
    exact List.dropWhile_cons_of_neg (by simp [ht])
  unfold handOff
  rw [hd]

/-- The queue after a new consumer has registered. -/
def enrol (q : Queue α) : Queue α :=
  { q with
    listeners := q.liveListeners ++ [q.nextTicket]
    channels := q.channels ++ [(q.nextTicket, none)]
    nextTicket := q.nextTicket + 1 }

theorem channel?_enrol_eq (q : Queue α) (t : Ticket) :
    q.enrol.channel? t = (q.channel? t).or (if t = q.nextTicket then some none else none) := by
  simp only [channel?, enrol, List.lookup_append, List.lookup_cons, List.lookup_nil]
  by_cases h : t = q.nextTicket
  · rw [if_pos h, beq_iff_eq.mpr h]
  · rw [if_neg h, beq_eq_false_iff_ne.mpr h]

theorem isLive_enrol : q.enrol.isLive t = true ↔ q.isLive t = true ∨ t = q.nextTicket := by
  unfold isLive
  rw [channel?_enrol_eq, Option.isSome_or, Bool.or_eq_true]
  split_ifs with h <;> simp [h]

theorem liveListeners_enrol (q : Queue α) :
    q.enrol.liveListeners = q.liveListeners ++ [q.nextTicket] := by
  have hold : q.liveListeners.filter q.enrol.isLive = q.liveListeners := by
    refine List.filter_eq_self.mpr fun t ht => ?_
    exact isLive_enrol.mpr (Or.inl (mem_liveListeners.mp ht).2)
  have hnew : q.enrol.isLive q.nextTicket = true := isLive_enrol.mpr (Or.inr rfl)
  rw [liveListeners, show q.enrol.listeners = q.liveListeners ++ [q.nextTicket] from rfl,
    List.filter_append, hold, List.filter_cons_of_pos hnew, List.filter_nil]

/-! ## The invariant -/

/-- What holds of a queue between operations. -/
structure Sound (q : Queue α) : Prop where
  /-- Nobody listens while a value is stored. -/
  apart : q.items = [] ∨ q.listeners = []
  /-- Listeners stand in the order of registration, each once. -/
  ordered : q.listeners.Pairwise (· < ·)
  /-- A consumer has one channel. -/
  keys : (q.channels.map Prod.fst).Nodup
  listeners_issued : ∀ t ∈ q.listeners, t < q.nextTicket
  channels_issued : ∀ t, q.isLive t = true → t < q.nextTicket
  /-- A consumer to which nothing was handed listens. -/
  waiting : ∀ t, q.channel? t = some none → t ∈ q.listeners
  /-- A consumer to which a value was handed does not. -/
  served : ∀ t v, q.channel? t = some (some v) → t ∉ q.listeners

theorem sound_empty (capacity : Nat) : (empty capacity : Queue α).Sound where
  apart := Or.inl rfl
  ordered := List.Pairwise.nil
  keys := List.nodup_nil
  listeners_issued := fun t ht => absurd ht List.not_mem_nil
  channels_issued := fun t ht => absurd ht (by simp [isLive, channel?, empty])
  waiting := fun t ht => absurd ht (by simp [channel?, empty])
  served := fun t v ht => absurd ht (by simp [channel?, empty])

namespace Sound

theorem channel?_of_live (h : q.Sound) (ht : t ∈ q.liveListeners) : q.channel? t = some none := by
  obtain ⟨hl, hlive⟩ := mem_liveListeners.mp ht
  obtain ⟨o, ho⟩ := Option.isSome_iff_exists.mp hlive
  cases o with
  | none => exact ho
  | some v => exact absurd hl (h.served t v ho)

theorem mem_liveListeners_iff (h : q.Sound) : t ∈ q.liveListeners ↔ q.channel? t = some none :=
  ⟨h.channel?_of_live, fun ht => mem_liveListeners.mpr ⟨h.waiting t ht, isLive_of_channel? ht⟩⟩

theorem items_eq_nil (h : q.Sound) (ht : t ∈ q.listeners) : q.items = [] :=
  h.apart.resolve_right (List.ne_nil_of_mem ht)

theorem listeners_eq_nil (h : q.Sound) (hi : q.items ≠ []) : q.listeners = [] :=
  h.apart.resolve_left hi

/-- A ticket that was not given out yet has no channel. -/
theorem channel?_nextTicket (h : q.Sound) : q.channel? q.nextTicket = none := by
  cases hc : q.channel? q.nextTicket with
  | none => rfl
  | some o => exact absurd (h.channels_issued _ (isLive_of_channel? hc)) (Nat.lt_irrefl _)

theorem channel?_enrol (h : q.Sound) {o : Option α} :
    q.enrol.channel? t = some o ↔ q.channel? t = some o ∨ t = q.nextTicket ∧ o = none := by
  rw [channel?_enrol_eq]
  by_cases ht : t = q.nextTicket
  · rw [ht, h.channel?_nextTicket]
    simp [eq_comm]
  · simp [ht]

/-- A consumer goes. Its listener may stay behind. -/
theorem close (h : q.Sound) (t : Ticket) : (q.close t).Sound where
  apart := h.apart
  ordered := h.ordered
  keys := h.keys.sublist (List.filter_sublist.map _)
  listeners_issued := h.listeners_issued
  channels_issued := fun u hu => by
    rw [isLive_close, Bool.and_eq_true] at hu
    exact h.channels_issued u hu.1
  waiting := fun u hu => by
    rw [channel?_close] at hu
    split_ifs at hu
    exact h.waiting u hu
  served := fun u v hu => by
    rw [channel?_close] at hu
    split_ifs at hu
    exact h.served u v hu

/-- The listeners change to some of them, among which are all that wait. -/
theorem setListeners (h : q.Sound) {ls : List Ticket} (hs : ls.Sublist q.listeners)
    (hw : ∀ t ∈ q.liveListeners, t ∈ ls) : ({ q with listeners := ls } : Queue α).Sound where
  apart := h.apart.imp_right fun e => by
    rw [e] at hs
    exact List.sublist_nil.mp hs
  ordered := h.ordered.sublist hs
  keys := h.keys
  listeners_issued := fun t ht => h.listeners_issued t (hs.subset ht)
  channels_issued := h.channels_issued
  waiting := fun t ht => hw t (h.mem_liveListeners_iff.mpr ht)
  served := fun t v ht hl => h.served t v ht (hs.subset hl)

/-- Listeners without a consumer are dropped. -/
theorem purge (h : q.Sound) : ({ q with listeners := q.liveListeners } : Queue α).Sound :=
  h.setListeners List.filter_sublist fun _ ht => ht

/-- Where no consumer waits, all listeners are dropped and the values may change. -/
theorem unheard (h : q.Sound) (hl : q.liveListeners = []) (xs : List α) :
    ({ q with items := xs, listeners := [] } : Queue α).Sound where
  apart := Or.inr rfl
  ordered := List.Pairwise.nil
  keys := h.keys
  listeners_issued := fun t ht => absurd ht List.not_mem_nil
  channels_issued := h.channels_issued
  waiting := fun t ht => by
    have : t ∈ q.liveListeners := h.mem_liveListeners_iff.mpr ht
    rwa [hl] at this
  served := fun t v _ => List.not_mem_nil

/-- While values are stored they may change. -/
theorem setItems (h : q.Sound) (hi : q.items ≠ []) (xs : List α) :
    ({ q with items := xs } : Queue α).Sound := by
  have hl := h.listeners_eq_nil hi
  have := h.unheard (by rw [liveListeners, hl]; rfl) xs
  rwa [← hl] at this

/-- A value is handed to the oldest consumer that waits. -/
theorem handOver (h : q.Sound) {rest : List Ticket} (hs : t :: rest <:+ q.listeners)
    (hl : q.liveListeners = t :: rest.filter q.isLive) (v : α) :
    ({ q.deliver t v with listeners := rest } : Queue α).Sound where
  apart := Or.inl (h.items_eq_nil (hs.subset List.mem_cons_self))
  ordered := (List.pairwise_cons.mp (h.ordered.sublist hs.sublist)).2
  keys := by
    have e : (q.deliver t v).channels.map Prod.fst = q.channels.map Prod.fst := by
      simp only [deliver, List.map_map]
      refine List.map_congr_left fun c _ => ?_
      by_cases hc : c.1 = t <;> simp [hc]
    exact e ▸ h.keys
  listeners_issued := fun u hu => h.listeners_issued u (hs.subset (List.mem_cons_of_mem t hu))
  channels_issued := fun u hu => h.channels_issued u ((isLive_deliver q t u v) ▸ hu)
  waiting := fun u hu => by
    have hu' : (q.deliver t v).channel? u = some none := hu
    rw [channel?_deliver] at hu'
    split_ifs at hu' with hut
    · rw [h.channel?_of_live (hl ▸ List.mem_cons_self)] at hu'
      exact absurd hu' (by simp)
    · have hm : u ∈ q.liveListeners := h.mem_liveListeners_iff.mpr hu'
      rw [hl] at hm
      exact List.mem_of_mem_filter ((List.mem_cons.mp hm).resolve_left hut)
  served := fun u w hu hr => by
    have hu' : (q.deliver t v).channel? u = some (some w) := hu
    have hd := List.pairwise_cons.mp (h.ordered.sublist hs.sublist)
    rw [channel?_deliver] at hu'
    split_ifs at hu' with hut
    · exact absurd (hut ▸ hd.1 u hr) (Nat.lt_irrefl _)
    · exact h.served u w hu' (hs.subset (List.mem_cons_of_mem t hr))

/-- A consumer registers where no value is stored. -/
theorem enrol (h : q.Sound) (hi : q.items = []) : q.enrol.Sound where
  apart := Or.inl hi
  ordered := by
    refine List.pairwise_append.mpr ⟨h.purge.ordered, List.pairwise_singleton _ _, ?_⟩
    intro t ht u hu
    rw [List.mem_singleton.mp hu]
    exact h.listeners_issued t (mem_liveListeners.mp ht).1
  keys := by
    have hn : q.nextTicket ∉ q.channels.map Prod.fst := by
      rw [mem_keys_iff]
      exact fun hl => Nat.lt_irrefl _ (h.channels_issued _ hl)
    simp only [Queue.enrol, List.map_append, List.map_cons, List.map_nil]
    exact List.nodup_append_comm.mp (List.nodup_cons.mpr ⟨hn, h.keys⟩)
  listeners_issued := fun t ht => by
    rcases List.mem_append.mp ht with ht | ht
    · exact Nat.lt_succ_of_lt (h.listeners_issued t (mem_liveListeners.mp ht).1)
    · rw [List.mem_singleton.mp ht]
      exact Nat.lt_succ_self _
  channels_issued := fun t ht => by
    rw [isLive_enrol] at ht
    rcases ht with ht | rfl
    · exact Nat.lt_succ_of_lt (h.channels_issued t ht)
    · exact Nat.lt_succ_self _
  waiting := fun t ht => by
    rcases h.channel?_enrol.mp ht with ht | ⟨rfl, -⟩
    · exact List.mem_append_left _ (h.mem_liveListeners_iff.mpr ht)
    · exact List.mem_append_right _ (List.mem_singleton_self _)
  served := fun t v ht hl => by
    rcases h.channel?_enrol.mp ht with ht | ⟨-, hv⟩
    · rcases List.mem_append.mp hl with hl | hl
      · exact h.served t v ht (mem_liveListeners.mp hl).1
      · rw [List.mem_singleton.mp hl, h.channel?_nextTicket] at ht
        exact absurd ht (by simp)
    · exact absurd hv (by simp)

end Sound

end Depot.Queue
