import Depot.Proofs.Queue.History

/-!
# Dropping a consumer while a value comes in

A value may come in just before a consumer is dropped to which nothing was handed, or just after.
In the first order the value may have been handed to that consumer; then it is taken back, and goes
to the next one that waits or in front of the stored values. In the second order the consumer's
listener is passed over, and the value goes to the next one or behind the stored values.

It makes no difference. A consumer that waits unserved listens, so no value is stored
(`Sound.items_eq_nil`), and front and end are the same (`enqueue_eq_restore`); listeners that are
passed over do not count (`enqueue_of_dead`); and what is done to the channels of two consumers may
be done in any order (`close_deliver_comm`).

Results:
* `Sound.abandon_enqueue`: in a sound queue a value that comes in and a consumer that is dropped
  unserved may change places.
* `drop_enqueue_comm`: **so they may in every session of a run**: the stored values, the listeners
  and all channels are the same in the end.

These are `enqueue` and the drop of a `PendingListener`.
-/

namespace Depot.Queue

variable {α : Type} {q : Queue α} {t u : Ticket} {v : α} {dead rest : List Ticket}

/-! ## Channels -/

/-- A value that was handed over does not change whose channel it is. -/
theorem close_deliver (q : Queue α) (t u : Ticket) (v : α) :
    ((q.deliver u v).close t).channels =
      (q.close t).channels.map fun c => if c.1 = u then (u, some v) else c := by
  have hkey : ∀ c : Ticket × Option α, (if c.1 = u then (u, some v) else c).1 = c.1 := by
    intro c
    split_ifs with h
    · exact h.symm
    · rfl
  simp only [close, deliver, List.filter_map]
  congr 1
  refine List.filter_congr fun c _ => ?_
  simp only [Function.comp_apply, hkey]

/-- What is handed to a consumer goes with it. -/
theorem close_deliver_self (q : Queue α) (t : Ticket) (v : α) :
    (q.deliver t v).close t = q.close t := by
  have hid : (q.close t).channels.map (fun c => if c.1 = t then (t, some v) else c)
      = (q.close t).channels := by
    refine (List.map_congr_left fun c hc => if_neg ?_).trans (List.map_id' _)
    simpa [close] using (List.mem_filter.mp hc).2
  exact congrArg (fun cs => ({ q with channels := cs } : Queue α))
    ((close_deliver q t t v).trans hid)

theorem close_deliver_comm (q : Queue α) (t u : Ticket) (v : α) :
    (q.deliver u v).close t = (q.close t).deliver u v :=
  congrArg (fun cs => ({ q with channels := cs } : Queue α)) (close_deliver q t u v)

/-! ## Values that come in -/

/-- The queue behind a part of the listeners. -/
abbrev behind (q : Queue α) (rest : List Ticket) : Queue α :=
  { q with listeners := rest }

/-- Listeners whose consumer is gone and who stand before the others do not count. -/
theorem enqueue_of_dead (hl : q.listeners = dead ++ rest) (hd : ∀ u ∈ dead, q.isLive u = false)
    (v : α) : q.enqueue v = (q.behind rest).enqueue v := by
  have hdrop : (q.listeners.dropWhile fun t => !q.isLive t)
      = rest.dropWhile fun t => !q.isLive t := by
    rw [hl, List.dropWhile_append_of_pos fun u hu => by simp [hd u hu]]
  unfold enqueue handOff
  rw [hdrop]
  rfl

/-- A value goes to the first listener whose consumer waits. -/
theorem enqueue_of_live (hl : q.listeners = dead ++ u :: rest)
    (hd : ∀ w ∈ dead, q.isLive w = false) (hu : q.isLive u = true) (v : α) :
    q.enqueue v = (q.behind rest).deliver u v := by
  have hfirst : ((q.behind (u :: rest)).listeners.dropWhile
      fun t => !(q.behind (u :: rest)).isLive t) = u :: rest :=
    List.dropWhile_cons_of_neg (show ¬ (!q.isLive u) = true by simp [hu])
  rw [enqueue_of_dead hl hd]
  unfold enqueue handOff
  rw [hfirst]
  rfl

/-- Where nothing is stored, what comes in goes where it would go if it was taken back. -/
theorem enqueue_eq_restore (hi : q.items = []) (v : α) : q.enqueue v = q.restore v := by
  unfold enqueue restore
  cases hl : q.liveListeners with
  | nil =>
    rw [handOff_of_live_nil hl]
    simp only [hi, List.nil_append]
  | cons t ts =>
    obtain ⟨rest, -, -, he⟩ := handOff_of_live_cons hl v
    rw [he]

theorem abandon_of_unserved (hc : q.channel? t = some none) :
    q.abandon (.registered t) = q.close t := by
  simp only [abandon, hc]

theorem abandon_of_served (hc : q.channel? t = some (some v)) :
    q.abandon (.registered t) = (q.close t).restore v := by
  simp only [abandon, hc]

/-- **A consumer that is dropped unserved and a value that comes in may change places.** -/
theorem Sound.abandon_enqueue (h : q.Sound) (hc : q.channel? t = some none) (v : α) :
    (q.enqueue v).abandon (.registered t) = (q.abandon (.registered t)).enqueue v := by
  have hi : q.items = [] := h.items_eq_nil (h.waiting t hc)
  -- the listeners up to the first whose consumer waits
  obtain ⟨u, us, hlive⟩ := List.exists_cons_of_ne_nil
    (List.ne_nil_of_mem (h.mem_liveListeners_iff.mpr hc))
  obtain ⟨dead, rest, hl, hdead, hu, -⟩ := List.filter_eq_cons_iff.mp hlive
  have hd : ∀ w ∈ dead, q.isLive w = false := fun w hw => by simpa using hdead w hw
  have hd' : ∀ w ∈ dead, (q.close t).isLive w = false := fun w hw => by
    rw [isLive_close, hd w hw, Bool.false_and]
  rw [abandon_of_unserved hc, enqueue_of_live hl hd hu]
  by_cases hut : u = t
  · -- the value is handed to the consumer itself, and is taken back
    subst hut
    have hserved : ((q.behind rest).deliver u v).channel? u = some (some v) := by
      rw [channel?_deliver, if_pos rfl, show (q.behind rest).channel? u = some none from hc]
      rfl
    have hgone : ∀ w ∈ dead ++ [u], (q.close u).isLive w = false := by
      intro w hw
      rcases List.mem_append.mp hw with hw | hw
      · exact hd' w hw
      · rw [List.mem_singleton.mp hw, isLive_close]
        simp
    calc ((q.behind rest).deliver u v).abandon (.registered u)
        = (((q.behind rest).deliver u v).close u).restore v := abandon_of_served hserved
      _ = ((q.behind rest).close u).restore v := by rw [close_deliver_self]
      _ = ((q.behind rest).close u).enqueue v :=
          (enqueue_eq_restore (q := (q.behind rest).close u) hi v).symm
      _ = (q.close u).enqueue v :=
          (enqueue_of_dead (q := q.close u) (hl.trans (List.append_cons dead u rest)) hgone v).symm
  · -- the value is handed to another one in both orders
    have hunserved : ((q.behind rest).deliver u v).channel? t = some none := by
      rw [channel?_deliver, if_neg (Ne.symm hut)]
      exact hc
    have hu' : (q.close t).isLive u = true := by
      rw [isLive_close, hu]
      simpa using hut
    calc ((q.behind rest).deliver u v).abandon (.registered t)
        = ((q.behind rest).deliver u v).close t := abandon_of_unserved hunserved
      _ = ((q.behind rest).close t).deliver u v := close_deliver_comm _ t u v
      _ = (q.close t).enqueue v := (enqueue_of_live (q := q.close t) hl hd' hu' v).symm

/-! ## Runs -/

section Runs

variable [BEq α]

/-- **It makes no difference whether a value comes in before a consumer is dropped unserved, or
after.** Let a waiter of a session have registered, with nothing in its channel. Both orders lead to
the same session: the stored values, the listeners and all channels are the same. -/
theorem drop_enqueue_comm {capacity : Nat} {cs : List (Command α)} {name : String}
    (hw : (run capacity cs).session.waiters.lookup name = some (.registered t))
    (hc : (run capacity cs).queue.channel? t = some none) (v : α) :
    (run capacity (cs ++ [.enqueue v, .drop name])).session =
      (run capacity (cs ++ [.drop name, .enqueue v])).session := by
  have hcomm := (run_sound capacity cs).queue.abandon_enqueue hc v
  rw [List.append_cons cs (.enqueue v) [.drop name], List.append_cons cs (.drop name) [.enqueue v],
    run_concat, run_concat, run_concat, run_concat]
  simp only [History.step, Session.step, Session.drop, hw]
  rw [hcomm]

end Runs

/-- Three consumers wait and the first of them is dropped, whose listener stays. -/
def leavingRun : List (Command Nat) :=
  [.wait "a", .poll "a", .wait "b", .poll "b", .wait "c", .poll "c", .drop "a"]

/-- The second one goes too, and the value is for the third. -/
theorem drop_enqueue_comm_leavingRun :
    (run 3 leavingRun).queue.listeners = [0, 1, 2] ∧
      (run 3 leavingRun).session.waiters.lookup "b" = some (.registered 1) ∧
      (run 3 leavingRun).queue.channel? 1 = some none ∧
      (run 3 (leavingRun ++ [.enqueue 7, .drop "b"])).session =
        (run 3 (leavingRun ++ [.drop "b", .enqueue 7])).session ∧
      (run 3 (leavingRun ++ [.drop "b", .enqueue 7])).queue.channel? 2 = some (some 7) :=
  ⟨rfl, rfl, rfl, drop_enqueue_comm rfl rfl 7, rfl⟩

end Depot.Queue
