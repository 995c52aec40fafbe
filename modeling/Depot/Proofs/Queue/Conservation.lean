import Depot.Proofs.Queue.History

/-!
# No value is lost, and none is doubled

Every value that came into a queue is in one place: stored, handed to a consumer that has not
taken it yet, returned to a consumer, or removed.

* `Place` names the places: an index among the stored values, the ticket of a consumer, or the
  position among all values returned, or removed, so far. `History.at?` is the value at a place.

Results:
* `Transition.conserves`: what an operation does to the values stored and held is what its event
  says.
* `perm_places`: the values that came in are, with repetitions, those at the places.
* `each_value_at_one_place`: **conservation.** If no value is enqueued twice, every value that came
  in is at exactly one place, nothing else is at any, and nothing is held for a consumer that was
  dropped. The equality by which values are named to be removed or moved may be any.

The commands are all those of a session, moves and removals included. Out of scope: values that are
enqueued twice; these are told apart by nothing.
-/

namespace Depot.Queue

variable {α : Type} {q q' : Queue α} {t : Ticket} {v : α} {e : Option (Event α)}

/-! ## What is held -/

/-- The channel of a consumer stands apart from all others. -/
theorem Sound.channels_split (h : q.Sound) {o : Option α} (hc : q.channel? t = some o) :
    ∃ l₁ l₂, q.channels = l₁ ++ (t, o) :: l₂ ∧ (q.close t).channels = l₁ ++ l₂ ∧
      ∀ v, (q.deliver t v).channels = l₁ ++ (t, some v) :: l₂ := by
  obtain ⟨l₁, l₂, hl, -⟩ := List.lookup_eq_some_iff.mp hc
  have hk := h.keys
  rw [hl, List.map_append, List.map_cons] at hk
  obtain ⟨hn, -⟩ := List.nodup_cons.mp (List.nodup_middle.mp hk)
  rw [← List.map_append] at hn
  have hne : ∀ c ∈ l₁ ++ l₂, c.1 ≠ t := fun c hm hct => hn (List.mem_map.mpr ⟨c, hm, hct⟩)
  have hne₁ : ∀ c ∈ l₁, c.1 ≠ t := fun c hc => hne c (List.mem_append_left _ hc)
  have hne₂ : ∀ c ∈ l₂, c.1 ≠ t := fun c hc => hne c (List.mem_append_right _ hc)
  refine ⟨l₁, l₂, hl, ?_, fun v => ?_⟩
  · simp only [Queue.close, hl, List.filter_append]
    rw [List.filter_eq_self.mpr fun c hc => by simpa using hne₁ c hc,
      List.filter_cons_of_neg (by simp),
      List.filter_eq_self.mpr fun c hc => by simpa using hne₂ c hc]
  · have hid : ∀ l : List (Ticket × Option α), (∀ c ∈ l, c.1 ≠ t) →
        (l.map fun c => if c.1 = t then (t, some v) else c) = l := fun l hl =>
      (List.map_congr_left fun c hc => if_neg (hl c hc)).trans (List.map_id' l)
    simp only [deliver, hl, List.map_append, List.map_cons, if_true, hid l₁ hne₁, hid l₂ hne₂]

theorem Sound.mem_channels_iff (h : q.Sound) {o : Option α} :
    (t, o) ∈ q.channels ↔ q.channel? t = some o := by
  have hmem : ∀ {o}, q.channel? t = some o → (t, o) ∈ q.channels := fun hc => by
    obtain ⟨l₁, l₂, hl, -⟩ := List.lookup_eq_some_iff.mp hc
    rw [hl]
    exact List.mem_append_right _ List.mem_cons_self
  refine ⟨fun hm => ?_, hmem⟩
  have hlive : q.isLive t = true := (mem_keys_iff t).mp (List.mem_map.mpr ⟨(t, o), hm, rfl⟩)
  obtain ⟨o', ho'⟩ := Option.isSome_iff_exists.mp hlive
  rw [← (Prod.mk.inj (List.inj_on_of_nodup_map h.keys hm (hmem ho') rfl)).2] at ho'
  exact ho'

/-- With a consumer goes what was handed to it. -/
theorem Sound.held_close (h : q.Sound) {o : Option α} (hc : q.channel? t = some o) :
    q.held.Perm (o.toList ++ (q.close t).held) := by
  obtain ⟨l₁, l₂, hl, hcl, -⟩ := h.channels_split hc
  unfold held
  rw [hl, hcl, List.filterMap_append, List.filterMap_append]
  cases o with
  | none => exact .refl _
  | some v => exact List.perm_middle

theorem Sound.held_deliver (h : q.Sound) (hc : q.channel? t = some none) (v : α) :
    (q.deliver t v).held.Perm (v :: q.held) := by
  obtain ⟨l₁, l₂, hl, -, hd⟩ := h.channels_split hc
  unfold held
  rw [hl, hd v, List.filterMap_append, List.filterMap_append]
  exact List.perm_middle

theorem held_enrol (q : Queue α) : q.enrol.held = q.held := by
  simp [held, enrol, List.filterMap_append]

/-- **What an operation does to the values is what its event says**: those stored or held before,
and the one that came in, are those stored or held after, and the one returned or removed. -/
theorem Transition.conserves (hT : Transition q e q') (h : q.Sound) :
    ((e.bind Event.enqueued?).toList ++ (q.items ++ q.held)).Perm
      (q'.items ++ q'.held ++
        ((e.bind Event.returned?).toList ++ (e.bind Event.discarded?).toList)) := by
  classical
  refine List.perm_iff_count.mpr fun a => ?_
  cases hT with
  | stay | refuse =>
    show List.count a ([] ++ (q.items ++ q.held)) = List.count a (q.items ++ q.held ++ ([] ++ []))
    simp only [List.append_nil, List.nil_append]
  | store v hl =>
    show List.count a ([v] ++ (q.items ++ q.held)) =
      List.count a (q.items ++ [v] ++ q.held ++ ([] ++ []))
    simp only [List.count_append, List.count_nil]
    omega
  | @handOver v t rest hs hl =>
    have hp := (h.held_deliver (h.channel?_of_live (hl ▸ List.mem_cons_self)) v).count_eq a
    show List.count a ([v] ++ (q.items ++ q.held)) =
      List.count a (q.items ++ (q.deliver t v).held ++ ([] ++ []))
    simp only [List.count_append, List.count_nil, List.count_cons] at hp ⊢
    omega
  | @take v rest hi =>
    show List.count a ([] ++ (q.items ++ q.held)) = List.count a (rest ++ q.held ++ ([v] ++ []))
    simp only [hi, List.count_append, List.count_nil, List.count_cons]
    omega
  | register hi hc =>
    show List.count a ([] ++ (q.items ++ q.held)) =
      List.count a (q.items ++ q.enrol.held ++ ([] ++ []))
    simp only [held_enrol, List.append_nil, List.nil_append]
  | @receive t v hc =>
    have hp := (h.held_close hc).count_eq a
    show List.count a ([] ++ (q.items ++ q.held)) =
      List.count a (q.items ++ (q.close t).held ++ ([v] ++ []))
    simp only [Option.toList_some, List.count_append, List.count_nil] at hp ⊢
    omega
  | @withdraw t hc =>
    have hp := (h.held_close hc).count_eq a
    show List.count a ([] ++ (q.items ++ q.held)) =
      List.count a (q.items ++ (q.close t).held ++ ([] ++ []))
    simp only [Option.toList_none, List.count_append, List.count_nil] at hp ⊢
    omega
  | @passOn t u v rest hc hs hl =>
    have hp := (h.held_close hc).count_eq a
    have hd := ((h.close t).held_deliver ((h.close t).channel?_of_live (hl ▸ List.mem_cons_self))
      v).count_eq a
    show List.count a ([] ++ (q.items ++ q.held)) =
      List.count a (q.items ++ ((q.close t).deliver u v).held ++ ([] ++ []))
    simp only [Option.toList_some, List.count_append, List.count_nil, List.count_cons] at hp hd ⊢
    omega
  | @putBack t v hc hl =>
    have hp := (h.held_close hc).count_eq a
    show List.count a ([] ++ (q.items ++ q.held)) =
      List.count a (v :: q.items ++ (q.close t).held ++ ([] ++ []))
    simp only [Option.toList_some, List.count_append, List.count_nil, List.count_cons] at hp ⊢
    omega
  | @discard i v hi =>
    obtain ⟨hlt, rfl⟩ := List.getElem?_eq_some_iff.mp hi
    have hp := (List.getElem_cons_eraseIdx_perm hlt).count_eq a
    show List.count a ([] ++ (q.items ++ q.held)) =
      List.count a (q.items.eraseIdx i ++ q.held ++ ([] ++ [q.items[i]]))
    simp only [List.count_append, List.count_nil, List.count_cons] at hp ⊢
    omega
  | @rearrange xs hi hp =>
    have hp := hp.count_eq a
    show List.count a ([] ++ (q.items ++ q.held)) = List.count a (xs ++ q.held ++ ([] ++ []))
    simp only [List.count_append, List.count_nil]
    omega

/-! ## Places -/

/-- Where a value can be. -/
inductive Place where
  /-- Among the stored values, at an index. -/
  | stored (i : Nat)
  /-- In the channel of a consumer. -/
  | held (t : Ticket)
  /-- Returned to a consumer, as the result with an index. -/
  | returned (i : Nat)
  /-- Removed, as the value with an index. -/
  | discarded (i : Nat)
  deriving DecidableEq

namespace History

variable {h : History α}

/-- The values that consumers got as results, oldest first. -/
def returned (h : History α) : List α :=
  h.events.filterMap Event.returned?

/-- The values that were removed, oldest first. -/
def discarded (h : History α) : List α :=
  h.events.filterMap Event.discarded?

/-- The consumers that were dropped while they waited. -/
def dropped (h : History α) : List Ticket :=
  h.events.filterMap Event.dropped?

/-- The value at a place. -/
def at? (h : History α) : Place → Option α
  | .stored i => h.queue.items[i]?
  | .held t => (h.queue.channel? t).join
  | .returned i => h.returned[i]?
  | .discarded i => h.discarded[i]?

/-- The values of a list with their places. -/
def placed (place : Nat → Place) (vs : List α) : List (Place × α) :=
  vs.zipIdx.map fun c => (place c.2, c.1)

/-- All places where a value is, with their values. -/
def contents (h : History α) : List (Place × α) :=
  placed .stored h.queue.items ++
    h.queue.channels.filterMap (fun c => c.2.map fun v => (.held c.1, v)) ++
    (placed .returned h.returned ++ placed .discarded h.discarded)

theorem mem_placed {place : Nat → Place} {vs : List α} {p : Place} :
    (p, v) ∈ placed place vs ↔ ∃ i, place i = p ∧ vs[i]? = some v := by
  unfold placed
  rw [List.mem_map]
  constructor
  · rintro ⟨⟨w, i⟩, hm, he⟩
    obtain ⟨rfl, rfl⟩ := Prod.mk.inj he
    exact ⟨i, rfl, List.mem_zipIdx_iff_getElem?.mp hm⟩
  · rintro ⟨i, rfl, hv⟩
    exact ⟨(v, i), List.mem_zipIdx_iff_getElem?.mpr hv, rfl⟩

theorem map_snd_placed (place : Nat → Place) (vs : List α) :
    (placed place vs).map Prod.snd = vs := by
  unfold placed
  rw [List.map_map]
  exact List.zipIdx_map_fst 0 vs

theorem map_snd_contents (h : History α) :
    h.contents.map Prod.snd = h.queue.items ++ h.queue.held ++ (h.returned ++ h.discarded) := by
  have hh : (h.queue.channels.filterMap fun c =>
      c.2.map fun v => (Place.held c.1, v)).map Prod.snd = h.queue.held := by
    rw [List.map_filterMap]
    refine List.filterMap_congr fun c _ => ?_
    cases c.2 <;> rfl
  unfold contents
  simp only [List.map_append, map_snd_placed, hh]

/-- A value is at a place exactly if it is listed with it. -/
theorem mem_contents (hq : h.queue.Sound) {p : Place} : (p, v) ∈ h.contents ↔ h.at? p = some v := by
  simp only [contents, List.mem_append, mem_placed, List.mem_filterMap, Option.map_eq_some_iff,
    Prod.mk.injEq]
  cases p with
  | stored i | returned i | discarded i => simp [at?]
  | held t =>
    simp only [at?, Option.join_eq_some_iff, ← hq.mem_channels_iff]
    constructor
    · rintro ((⟨i, hi, -⟩ | ⟨c, hc, w, hw, ht, rfl⟩) | ⟨i, hi, -⟩ | ⟨i, hi, -⟩)
      · exact absurd hi (by simp)
      · obtain rfl := Place.held.inj ht
        exact hw ▸ hc
      · exact absurd hi (by simp)
      · exact absurd hi (by simp)
    · exact fun hc => Or.inl (Or.inr ⟨(t, some v), hc, v, rfl, rfl, rfl⟩)

end History

/-! ## Runs -/

/-- The values that came in are those that are stored or held, or were returned or removed. -/
def Balanced (q : Queue α) (es : List (Event α)) : Prop :=
  (es.filterMap Event.enqueued?).Perm
    (q.items ++ q.held ++ (es.filterMap Event.returned? ++ es.filterMap Event.discarded?))

theorem Balanced.step {es : List (Event α)} (h : Balanced q es) (hq : q.Sound)
    (hT : Transition q e q') : Balanced q' (es ++ e.toList) := by
  classical
  refine List.perm_iff_count.mpr fun a => ?_
  have hi := h.count_eq a
  have hc := (hT.conserves hq).count_eq a
  simp only [List.filterMap_append, List.count_append, filterMap_toList] at hi hc ⊢
  omega

/-- What is held is not stored. -/
theorem Balanced.not_mem_items {es : List (Event α)} (h : Balanced q es) (hq : q.Sound)
    (hd : (es.filterMap Event.enqueued?).Nodup) (hc : q.channel? t = some (some v)) :
    v ∉ q.items := by
  have hheld : v ∈ q.held := List.mem_filterMap.mpr ⟨(t, some v), hq.mem_channels_iff.mpr hc, rfl⟩
  have hn := (List.nodup_append.mp (h.nodup_iff.mp hd)).1
  exact fun hv => (List.nodup_append.mp hn).2.2 v hv v hheld rfl

section Runs

variable [BEq α] (capacity : Nat) (cs : List (Command α))

theorem run_balanced : Balanced (run capacity cs).queue (run capacity cs).events :=
  run_induction (P := Balanced) (List.Perm.refl _) (fun hq _ hT h => h.step hq hT) cs

/-- **The values that came in are those at the places**, with repetitions. -/
theorem perm_places : (values cs).Perm ((run capacity cs).contents.map Prod.snd) := by
  rw [← enqueued_run capacity, History.map_snd_contents]
  exact run_balanced capacity cs

/-- **Conservation.** Let no value be enqueued twice, so that it is known by itself, whatever
equality names values to be removed or moved. After every run each value that came in is at one
place and no other value is at any: stored, held for a consumer that waits, returned once or
removed once. Nothing is held for a consumer that was dropped. -/
theorem each_value_at_one_place (hd : (values cs).Nodup) :
    (∀ v ∈ values cs, ∃! p, (run capacity cs).at? p = some v) ∧
      (∀ p v, (run capacity cs).at? p = some v → v ∈ values cs) ∧
      (∀ t v, (run capacity cs).at? (.held t) = some v → (run capacity cs).Waits t) ∧
      ∀ t ∈ (run capacity cs).dropped, (run capacity cs).queue.channel? t = none := by
  have hq := (run_sound capacity cs).queue
  have hp := perm_places capacity cs
  refine ⟨fun v hv => ?_, fun p v hpv => ?_, fun t v htv => ?_, fun t ht => ?_⟩
  · obtain ⟨⟨p, w⟩, hm, rfl⟩ := List.mem_map.mp (hp.mem_iff.mp hv)
    refine ⟨p, (History.mem_contents hq).mp hm, fun p' hp' => ?_⟩
    have hm' := (History.mem_contents hq).mpr hp'
    exact congrArg Prod.fst (List.inj_on_of_nodup_map (hp.nodup_iff.mp hd) hm' hm rfl)
  · exact hp.mem_iff.mpr (List.mem_map.mpr ⟨(p, v), (History.mem_contents hq).mpr hpv, rfl⟩)
  · exact (isLive_iff_waits capacity cs t).mp (isLive_of_channel? (Option.join_eq_some_iff.mp htv))
  · obtain ⟨e, he, hdr⟩ := List.mem_filterMap.mp ht
    cases hc : (run capacity cs).queue.channel? t with
    | none => rfl
    | some o =>
      have hw := (isLive_iff_waits capacity cs t).mp (isLive_of_channel? hc)
      exact absurd (Event.departs_of_dropped hdr) (hw.2 e he)

end Runs

/-- A value is handed to one consumer, which is dropped, and passed on to another one; the next
value is stored and removed. -/
def passingRun : List (Command Nat) :=
  [.wait "a", .poll "a", .wait "b", .poll "b", .enqueue 1, .drop "a", .enqueue 2, .remove 2]

theorem each_value_at_one_place_passingRun :
    (run 2 passingRun).at? (.held 1) = some 1 ∧
      ∀ p, (run 2 passingRun).at? p = some 1 → p = .held 1 := by
  have hp : (run 2 passingRun).at? (.held 1) = some 1 := by decide
  obtain ⟨p, -, hu⟩ := (each_value_at_one_place 2 passingRun (by decide)).1 1 (by decide)
  exact ⟨hp, fun p' hp' => (hu p' hp').trans (hu _ hp).symm⟩

end Depot.Queue
