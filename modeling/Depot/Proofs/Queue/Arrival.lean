import Depot.Proofs.Queue.Conservation
import Mathlib.Data.List.Infix

/-!
# The order of arrival

Values are stored in the order in which they came in, and a consumer that is dropped puts the value
that was handed to it in front of all others. That is its place as long as it is the oldest of
them: every value that was handed over is older than every value that was stored directly. But two
values that were handed over can be put back in the wrong order.

* `Layered` is the invariant: in front are the values that were put back, behind them, in their
  order, the last values that came in; what was handed over or put back is older than these.
* `Overtakes` says of an event that it puts a value in front of an older one that was put back
  before.

Results:
* `Layered.step`: every transition that neither removes nor moves a value keeps the layers.
* `sublist_run_iff`: **the stored values are in the order of arrival all along a run if and only if
  no value overtakes another one when it is put back.**
* `not_sublist_crossedRun`: the order is lost where two consumers hold a value and the one that was
  served first is dropped first.

The values are put back by `restore`, when a waiter is dropped that holds one. Out of scope: runs
that remove or move values.
-/

namespace Depot.Queue

variable {α : Type} {q q' : Queue α} {t s : Ticket} {u v w : α} {e : Option (Event α)}
  {es : List (Event α)} {xs ys : List α}

/-! ## Order in a list without repetitions -/

theorem pair_sublist_or (hu : u ∈ xs) (hv : v ∈ xs) (hne : u ≠ v) :
    [u, v].Sublist xs ∨ [v, u].Sublist xs := by
  induction xs with
  | nil => exact absurd hu List.not_mem_nil
  | cons x xs ih =>
    rcases List.mem_cons.mp hu with rfl | hu'
    · have hv' := (List.mem_cons.mp hv).resolve_left hne.symm
      exact Or.inl ((List.singleton_sublist.mpr hv').cons_cons u)
    · rcases List.mem_cons.mp hv with rfl | hv'
      · exact Or.inr ((List.singleton_sublist.mpr hu').cons_cons v)
      · exact (ih hu' hv').imp (List.Sublist.cons x) (List.Sublist.cons x)

theorem not_pair_sublist (hd : xs.Nodup) (h : [u, v].Sublist xs) : ¬ [v, u].Sublist xs := by
  obtain ⟨ys, zs, rfl, hu, hv⟩ := List.cons_sublist_iff.mp h
  intro h'
  obtain ⟨ys', zs', he, hv', hu'⟩ := List.cons_sublist_iff.mp h'
  have hdisj := List.disjoint_of_nodup_append hd
  rw [List.singleton_sublist] at hv hu'
  rcases List.append_eq_append_iff.mp he with ⟨k, rfl, rfl⟩ | ⟨k, rfl, rfl⟩
  · exact hdisj hu (List.mem_append_right k hu')
  · exact hdisj (List.mem_append_left k hv') hv

/-- A value that stands before all of `xs` can be put in front. -/
theorem cons_sublist (hd : ys.Nodup) (hv : v ∈ ys) (hs : xs.Sublist ys)
    (hb : ∀ x ∈ xs, [v, x].Sublist ys) : (v :: xs).Sublist ys := by
  obtain ⟨l₁, l₂, rfl⟩ := List.append_of_mem hv
  obtain ⟨front, rest, rfl, hf, hr⟩ := List.sublist_append_iff.mp hs
  have hfront : front = [] := by
    refine List.eq_nil_iff_forall_not_mem.mpr fun x hx => ?_
    have hxv : [x, v].Sublist (l₁ ++ v :: l₂) :=
      (List.singleton_sublist.mpr (hf.subset hx)).append (List.singleton_sublist.mpr (by simp))
    exact not_pair_sublist hd hxv (hb x (List.mem_append_left rest hx))
  rw [hfront, List.nil_append] at hb ⊢
  rcases List.sublist_cons_iff.mp hr with hr' | ⟨r, rfl, -⟩
  · exact (hr'.cons_cons v).trans (List.sublist_append_right l₁ _)
  · have hvv := hb v List.mem_cons_self
    exact absurd hvv (not_pair_sublist hd hvv)

/-! ## Layers -/

theorem held_of_close (h : (q.close t).channel? s = some (some v)) :
    q.channel? s = some (some v) := by
  rw [channel?_close] at h
  split_ifs at h
  exact h

theorem held_of_deliver (h : (q.deliver t w).channel? s = some (some v)) :
    v = w ∨ q.channel? s = some (some v) := by
  rw [channel?_deliver] at h
  split_ifs at h
  · obtain ⟨o, -, ho⟩ := Option.map_eq_some_iff.mp h
    exact Or.inl (Option.some.inj ho).symm
  · exact Or.inr h

/-- An event that puts nothing back adds nothing to what was put back. -/
theorem of_mem_append (hb : ∀ t v, e ≠ some (.putBack t v))
    (hm : .putBack t v ∈ es ++ e.toList) : .putBack t v ∈ es := by
  rcases List.mem_append.mp hm with hm | hm
  · exact hm
  · exact absurd (Option.mem_toList.mp hm) (hb t v)

/-- What is stored are first the values that were put back, `back`, and behind them, in their
order, the last ones that came in, `recent`. -/
structure Layered (q : Queue α) (es : List (Event α)) (older back recent : List α) : Prop where
  items : q.items = back ++ recent
  enqueued : es.filterMap Event.enqueued? = older ++ recent
  back_returned : ∀ v ∈ back, ∃ t, .putBack t v ∈ es
  returned_older : ∀ t v, .putBack t v ∈ es → v ∈ older
  held_older : ∀ t v, q.channel? t = some (some v) → v ∈ older

namespace Layered

variable {older back recent : List α}

/-- What was put back stays so. -/
theorem returned_append (h : Layered q es older back recent) (hv : v ∈ back)
    (es' : List (Event α)) : ∃ t, .putBack t v ∈ es ++ es' := by
  obtain ⟨t, ht⟩ := h.back_returned v hv
  exact ⟨t, List.mem_append_left es' ht⟩

/-- Nothing comes in and nothing is put back; what is held afterwards is older. -/
theorem keep (h : Layered q es older back recent) (hi : q'.items = q.items)
    (hv : e.bind Event.enqueued? = none) (hb : ∀ t v, e ≠ some (.putBack t v))
    (ho : ∀ t v, q'.channel? t = some (some v) → v ∈ older) :
    Layered q' (es ++ e.toList) older back recent where
  items := hi.trans h.items
  enqueued := by
    rw [List.filterMap_append, ← List.append_nil (older ++ recent), h.enqueued]
    cases e with
    | none => rfl
    | some e => exact congrArg _ (List.filterMap_cons_none hv)
  back_returned := fun v hm => h.returned_append hm _
  returned_older := fun t v hm => h.returned_older t v (of_mem_append hb hm)
  held_older := ho

theorem store (h : Layered q es older back recent) (v : α) (ls : List Ticket) :
    Layered { q with items := q.items ++ [v], listeners := ls } (es ++ [.enqueued v]) older back
      (recent ++ [v]) where
  items := by rw [h.items, List.append_assoc]
  enqueued := by
    rw [filterMap_concat_some (f := Event.enqueued?) rfl, h.enqueued, List.append_assoc]
  back_returned := fun v hm => h.returned_append hm _
  returned_older := fun t v hm => h.returned_older t v (by simpa using hm)
  held_older := h.held_older

/-- A value that is handed over is older than all that will be stored directly. -/
theorem handOver (h : Layered q es older back recent) (hi : q.items = []) (v : α)
    (ls : List Ticket) :
    Layered { q.deliver t v with listeners := ls } (es ++ [.enqueued v]) (older ++ [v]) [] [] := by
  obtain ⟨rfl, rfl⟩ := List.append_eq_nil_iff.mp (h.items.symm.trans hi)
  refine ⟨hi, ?_, fun v hm => absurd hm List.not_mem_nil, fun s w hm => ?_, fun s w hc => ?_⟩
  · rw [filterMap_concat_some (f := Event.enqueued?) rfl, h.enqueued, List.append_nil,
      List.append_nil]
  · exact List.mem_append_left _ (h.returned_older s w (by simpa using hm))
  · rcases held_of_deliver hc with rfl | hc'
    · exact List.mem_append_right _ List.mem_cons_self
    · exact List.mem_append_left _ (h.held_older s w hc')

/-- The oldest value leaves: one that was put back, or else one that was stored directly. -/
theorem take (h : Layered q es older back recent) {rest : List α} (hi : q.items = v :: rest) :
    ∃ older' back' recent',
      Layered { q with items := rest } (es ++ [.taken v]) older' back' recent' := by
  have hvalues := filterMap_concat_none (show (Event.taken v).enqueued? = none from rfl) es
  have hreturned : ∀ s w, (Event.putBack s w) ∈ es ++ [.taken v] → w ∈ older := fun s w hm =>
    h.returned_older s w (by simpa using hm)
  cases back with
  | nil =>
    obtain rfl : recent = v :: rest := h.items.symm.trans hi
    refine ⟨older ++ [v], [], rest, rfl, ?_, fun v hm => absurd hm List.not_mem_nil, ?_, ?_⟩
    · rw [hvalues, h.enqueued, List.append_assoc]
      rfl
    · exact fun s w hm => List.mem_append_left _ (hreturned s w hm)
    · exact fun s w hc => List.mem_append_left _ (h.held_older s w hc)
  | cons b back =>
    obtain ⟨rfl, rfl⟩ := List.cons_eq_cons.mp (h.items.symm.trans hi)
    exact ⟨older, back, recent, rfl, hvalues.trans h.enqueued,
      fun w hm => h.returned_append (List.mem_cons_of_mem _ hm) _, hreturned, h.held_older⟩

theorem putBack (h : Layered q es older back recent) (hc : q.channel? t = some (some v))
    (ls : List Ticket) :
    Layered { q.close t with items := v :: q.items, listeners := ls } (es ++ [.putBack t v]) older
      (v :: back) recent where
  items := by rw [h.items, List.cons_append]
  enqueued := by rw [filterMap_concat_none (f := Event.enqueued?) rfl, h.enqueued]
  back_returned := fun w hm => by
    rcases List.mem_cons.mp hm with rfl | hm
    · exact ⟨t, List.mem_append_right _ List.mem_cons_self⟩
    · exact h.returned_append hm _
  returned_older := fun s w hm => by
    rcases List.mem_append.mp hm with hm | hm
    · exact h.returned_older s w hm
    · obtain ⟨rfl, rfl⟩ := Event.putBack.inj (List.mem_singleton.mp hm)
      exact h.held_older _ _ hc
  held_older := fun s w hs => h.held_older s w (held_of_close hs)

/-- **Every transition that neither removes nor moves a value keeps the layers.** -/
theorem step (h : Layered q es older back recent) (hq : q.Sound) (hT : Transition q e q')
    (hr : ∀ e' ∈ e, e'.isReorder = false) :
    ∃ older' back' recent', Layered q' (es ++ e.toList) older' back' recent' := by
  cases hT with
  | stay | refuse => exact ⟨_, _, _, h.keep rfl rfl (by simp) h.held_older⟩
  | store v hl => exact ⟨_, _, _, h.store v []⟩
  | handOver v hs hl =>
    exact ⟨_, _, _, h.handOver (hq.items_eq_nil (hs.subset List.mem_cons_self)) v _⟩
  | take hi => exact h.take hi
  | register hi hc =>
    refine ⟨_, _, _, h.keep rfl rfl (by simp) fun s w hs => ?_⟩
    rcases hq.channel?_enrol.mp hs with hs' | ⟨-, hn⟩
    · exact h.held_older s w hs'
    · exact absurd hn (by simp)
  | receive hc | withdraw hc =>
    exact ⟨_, _, _, h.keep rfl rfl (by simp) fun s w hs => h.held_older s w (held_of_close hs)⟩
  | passOn hc hs hl =>
    refine ⟨_, _, _, h.keep rfl rfl (by simp) fun s w hs' => ?_⟩
    rcases held_of_deliver hs' with rfl | hs'
    · exact h.held_older _ _ hc
    · exact h.held_older s w (held_of_close hs')
  | putBack hc hl => exact ⟨_, _, _, h.putBack hc []⟩
  | discard hi | rearrange hi hp => exact absurd (hr _ rfl) (by simp [Event.isReorder])

end Layered

/-! ## Overtaking -/

/-- An event puts a value in front of an older one that was put back before. -/
def Overtakes (q : Queue α) (es : List (Event α)) : Option (Event α) → Prop
  | some (.putBack _ v) =>
    ∃ u ∈ q.items, (∃ t, .putBack t u ∈ es) ∧ [u, v].Sublist (es.filterMap Event.enqueued?)
  | _ => False

namespace Layered

variable {older back recent : List α}

/-- A value that is put back is in its place unless it overtakes another one. -/
theorem cons_sublist_iff (h : Layered q es older back recent)
    (hd : (es.filterMap Event.enqueued?).Nodup)
    (ho : q.items.Sublist (es.filterMap Event.enqueued?)) (hc : q.channel? t = some (some v))
    (hn : v ∉ q.items) :
    (v :: q.items).Sublist (es.filterMap Event.enqueued?) ↔
      ¬ Overtakes q es (some (.putBack t v)) := by
  have hv := h.held_older t v hc
  have hvalue : v ∈ es.filterMap Event.enqueued? := h.enqueued ▸ List.mem_append_left recent hv
  constructor
  · rintro hs ⟨u, hu, -, huv⟩
    have hvu := ((List.singleton_sublist.mpr hu).cons_cons v).trans hs
    exact not_pair_sublist hd huv hvu
  · refine fun hno => cons_sublist hd hvalue ho fun x hx => ?_
    rcases List.mem_append.mp (h.items ▸ hx) with hback | hrecent
    · have hne : v ≠ x := fun e => hn (e ▸ hx)
      exact (pair_sublist_or hvalue (ho.subset hx) hne).resolve_right fun hxv =>
        hno ⟨x, hx, h.back_returned x hback, hxv⟩
    · rw [h.enqueued]
      exact (List.singleton_sublist.mpr hv).append (List.singleton_sublist.mpr hrecent)

/-- **One transition keeps the order of arrival unless a value overtakes another one.** -/
theorem sublist_iff (h : Layered q es older back recent) (hb : Balanced q es) (hq : q.Sound)
    (hd : (es.filterMap Event.enqueued?).Nodup)
    (ho : q.items.Sublist (es.filterMap Event.enqueued?)) (hT : Transition q e q')
    (hr : ∀ e' ∈ e, e'.isReorder = false) :
    q'.items.Sublist ((es ++ e.toList).filterMap Event.enqueued?) ↔ ¬ Overtakes q es e := by
  rw [List.filterMap_append]
  cases hT with
  | putBack hc hl =>
    rw [Option.toList_some, List.filterMap_cons_none rfl, List.filterMap_nil, List.append_nil]
    exact h.cons_sublist_iff hd ho hc (hb.not_mem_items hq hd hc)
  | discard hi | rearrange hi hp => exact absurd (hr _ rfl) (by simp [Event.isReorder])
  | store v hl => exact iff_of_true (ho.append (List.Sublist.refl [v])) not_false
  | take hi =>
    refine iff_of_true ?_ not_false
    rw [hi] at ho
    exact (List.sublist_of_cons_sublist ho).trans (List.sublist_append_left _ _)
  | _ => exact iff_of_true (ho.trans (List.sublist_append_left _ _)) not_false

end Layered

/-! ## Runs -/

section Runs

variable [BEq α] {capacity : Nat} {cs p : List (Command α)} {c : Command α}

theorem run_layered (capacity : Nat) (hc : ∀ c ∈ cs, c.keepsOrder = true) :
    ∃ older back recent,
      Layered (run capacity cs).queue (run capacity cs).events older back recent := by
  have h0 : Layered (empty capacity : Queue α) [] [] [] [] :=
    ⟨rfl, rfl, fun v hv => absurd hv List.not_mem_nil, fun t v hv => absurd hv List.not_mem_nil,
      fun t v hv => absurd hv (by simp [channel?, empty])⟩
  refine run_induction (P := fun q es => (∀ e ∈ es, e.isReorder = false) →
    ∃ older back recent, Layered q es older back recent) (fun _ => ⟨_, _, _, h0⟩) ?_ cs
      (run_isReorder capacity hc)
  intro q e q' es hq ha hT ih hr
  obtain ⟨older, back, recent, h⟩ := ih fun e' he' => hr e' (List.mem_append_left _ he')
  exact h.step hq hT fun e' he' => hr e' (List.mem_append_right _ (Option.mem_toList.mpr he'))

/-- A command puts a value in front of an older one that was put back before. -/
def History.Overtakes (h : History α) (c : Command α) : Prop :=
  Queue.Overtakes h.queue h.events (h.session.step c).1

/-- One command more keeps the order of arrival unless a value overtakes another one. -/
theorem sublist_concat_iff (hc : ∀ c' ∈ p ++ [c], c'.keepsOrder = true) (hd : (values p).Nodup)
    (ho : (run capacity p).queue.items.Sublist (values p)) :
    (run capacity (p ++ [c])).queue.items.Sublist (values (p ++ [c])) ↔
      ¬ (run capacity p).Overtakes c := by
  obtain ⟨older, back, recent, h⟩ :=
    run_layered capacity fun c' hm => hc c' (List.mem_append_left _ hm)
  have hs := run_sound capacity p
  rw [← enqueued_run capacity] at hd ho ⊢
  rw [run_concat]
  exact h.sublist_iff (run_balanced capacity p) hs.queue hd ho (hs.step c).1 fun e he =>
    (Session.step_makes he).isReorder (hc c (by simp))

/-- **Values are stored in the order of arrival as long as none overtakes another one.** Let values
be enqueued and asked for and let consumers be dropped, no value being enqueued twice, so that each
names one arrival. Then what is stored is in the order of arrival after each command if and only if
no command puts a value back in front of an older one that was put back before and is still
stored. -/
theorem sublist_run_iff (capacity : Nat) (cs : List (Command α))
    (hc : ∀ c ∈ cs, c.keepsOrder = true) (hd : (values cs).Nodup) :
    (∀ p, p <+: cs → (run capacity p).queue.items.Sublist (values p)) ↔
      ∀ p c, p ++ [c] <+: cs → ¬ (run capacity p).Overtakes c := by
  have hstep : ∀ p c, p ++ [c] <+: cs → (run capacity p).queue.items.Sublist (values p) →
      ((run capacity (p ++ [c])).queue.items.Sublist (values (p ++ [c])) ↔
        ¬ (run capacity p).Overtakes c) := by
    intro p c hp ho
    have hpre := (List.prefix_append p [c]).trans hp
    exact sublist_concat_iff (fun c' hm => hc c' (hp.subset hm))
      (hd.sublist (hpre.sublist.filterMap _)) ho
  constructor
  · intro h p c hp
    exact (hstep p c hp (h p ((List.prefix_append p [c]).trans hp))).mp (h _ hp)
  · intro h p hp
    induction p using List.reverseRecOn with
    | nil => exact List.Sublist.refl []
    | append_singleton p c ih =>
      exact (hstep p c hp (ih ((List.prefix_append p [c]).trans hp))).mpr (h p c hp)

end Runs

/-- Two consumers get a value each, and the one that was served last is dropped first. -/
def nestedRun : List (Command Nat) :=
  [.wait "a", .poll "a", .wait "b", .poll "b", .enqueue 1, .enqueue 2, .drop "b", .drop "a"]

theorem sublist_run_iff_nestedRun :
    (run 2 nestedRun).queue.items = [1, 2] ∧
      ∀ p c, p ++ [c] <+: nestedRun → ¬ (run 2 p).Overtakes c := by
  have ho : ∀ p ∈ nestedRun.inits, (run 2 p).queue.items.Sublist (values p) := by decide
  refine ⟨by decide, (sublist_run_iff 2 nestedRun (by decide) (by decide)).mp fun p hp => ?_⟩
  exact ho p ((List.mem_inits p nestedRun).mpr hp)

/-- The same consumers, but the one that was served first is dropped first. -/
def crossedRun : List (Command Nat) :=
  [.wait "a", .poll "a", .wait "b", .poll "b", .enqueue 1, .enqueue 2, .drop "a", .drop "b"]

/-- **The order of arrival is lost** where both put their value in front. -/
theorem not_sublist_crossedRun :
    (∀ c ∈ crossedRun, c.keepsOrder = true) ∧ (values crossedRun).Nodup ∧
      (run 2 crossedRun).queue.items = [2, 1] ∧
      ¬ (run 2 crossedRun).queue.items.Sublist (values crossedRun) := by
  decide

end Depot.Queue
