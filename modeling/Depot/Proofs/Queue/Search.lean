import Depot.Queue.Search
import Mathlib.Data.List.Basic

/-!
# What the looks into a queue have in common

A queue is looked into by index, by page, by indices and by predicate. All of these tell of the same
list of values, whatever the offset, the limit and the indices are.

* `Pages q limit offset pages`: the pages that are taken from an offset on, each where the one
  before it ends, up to the first that is out of bounds.
* `Asked p vs s answers s'`: a predicate with a state is asked of values, of each once and in order.
  What it answers may depend on what it was asked before.

Results:
* `exists_pages`, `Pages.flatten_eq`: there are such pages, and they are the values from the offset
  on.
* `find_run`: a predicate is asked of all values, and the indices of those that it accepts are
  found.
* `indexOf?_eq_head?`: the index of a value is the first one that is found.
* `snapshot_laws`: **all looks into a queue agree with each other.**

These are `get_element`, `get_filtered_elements`, `find_by_ids`, `find` and `find_one`. Out of
scope: a predicate that does not answer.
-/

namespace Depot.Queue

variable {α : Type} {q : Queue α}

/-! ## Values by index -/

theorem toOption_get (q : Queue α) (i : Nat) : (q.get i).toOption = q.items[i]? := by
  unfold get
  cases q.items[i]? <;> rfl

theorem pick_eq (q : Queue α) (indices : List Nat) :
    q.pick indices = indices.filterMap fun i => (q.get i).toOption := by
  simp only [pick, toOption_get]

/-! ## Page after page -/

/-- Pages are taken from an offset on, one behind the other, until there is none. -/
inductive Pages (q : Queue α) (limit : Nat) : Nat → List (List α) → Prop where
  | done {offset : Nat} (h : q.page offset limit = .error .outOfBounds) : Pages q limit offset []
  | page {offset : Nat} {vs : List α} {pages : List (List α)} (h : q.page offset limit = .ok vs)
      (hrest : Pages q limit (offset + limit) pages) : Pages q limit offset (vs :: pages)

variable {offset limit : Nat} {pages : List (List α)}

theorem page_eq_ok_iff {vs : List α} : q.page offset limit = .ok vs ↔
    offset < q.size ∧ 0 < limit ∧ (q.items.drop offset).take limit = vs := by
  unfold page
  split
  · next h => exact iff_of_false nofun (by omega)
  · next h =>
    rw [Except.ok.injEq]
    exact ⟨fun hvs => ⟨by omega, by omega, hvs⟩, fun hvs => hvs.2.2⟩

theorem page_eq_error_iff {e : QueueError} : q.page offset limit = .error e ↔
    (q.size ≤ offset ∨ limit = 0) ∧ e = .outOfBounds := by
  unfold page
  split
  · next h => simp [h, eq_comm]
  · next h => exact iff_of_false nofun fun he => h he.1

theorem exists_pages (q : Queue α) (hlimit : 0 < limit) (offset : Nat) :
    ∃ pages, q.Pages limit offset pages := by
  -- a page takes the offset nearer to the end by at least one
  induction hleft : q.size - offset using Nat.strongRecOn generalizing offset with
  | ind left ih =>
    by_cases h : offset < q.size
    · obtain ⟨pages, hpages⟩ := ih _ (by omega) (offset + limit) rfl
      exact ⟨_, .page (page_eq_ok_iff.mpr ⟨h, hlimit, rfl⟩) hpages⟩
    · exact ⟨[], .done (page_eq_error_iff.mpr ⟨.inl (Nat.le_of_not_lt h), rfl⟩)⟩

namespace Pages

/-- Pages put together are the values from the offset on. -/
theorem flatten_eq (h : q.Pages limit offset pages) (hlimit : 0 < limit) :
    pages.flatten = q.items.drop offset := by
  induction h with
  | done h =>
    have hend : q.items.length ≤ _ := (page_eq_error_iff.mp h).1.resolve_right (by omega)
    rw [List.flatten_nil, List.drop_of_length_le hend]
  | page h _ ih =>
    obtain ⟨-, -, rfl⟩ := page_eq_ok_iff.mp h
    rw [List.flatten_cons, ih, ← List.drop_drop, List.take_append_drop]

theorem ne_nil (h : q.Pages limit offset pages) : ∀ vs ∈ pages, vs ≠ [] := by
  induction h with
  | done h => exact nofun
  | page h _ ih =>
    obtain ⟨hoffset, hlimit, rfl⟩ := page_eq_ok_iff.mp h
    refine List.forall_mem_cons.mpr ⟨fun he => ?_, ih⟩
    have hlength := congrArg List.length he
    rw [List.length_take, List.length_drop, List.length_nil] at hlength
    rw [size] at hoffset
    omega

/-- A page that is not the last one is full, since the next one is not empty. -/
theorem length_eq (h : q.Pages limit offset pages) : ∀ vs ∈ pages.dropLast, vs.length = limit := by
  induction h with
  | done h => exact nofun
  | page h hrest ih =>
    cases hrest with
    | done => exact nofun
    | page hnext _ =>
      obtain ⟨-, -, rfl⟩ := page_eq_ok_iff.mp h
      refine List.forall_mem_cons.mpr ⟨?_, ih⟩
      have hoffset := (page_eq_ok_iff.mp hnext).1
      rw [List.length_take, List.length_drop]
      rw [size] at hoffset
      omega

theorem last_lt (h : q.Pages limit offset pages) (hne : pages ≠ []) :
    offset + (pages.length - 1) * limit < q.size := by
  induction h with
  | done h => exact absurd rfl hne
  | @page offset vs pages h hrest ih =>
    cases hrest with
    | done => simpa using (page_eq_ok_iff.mp h).1
    | page hnext _ =>
      have hlast := ih (List.cons_ne_nil _ _)
      simp only [List.length_cons, Nat.add_sub_cancel, Nat.add_mul] at hlast ⊢
      omega

/-- All offsets that are asked for, the one that is out of bounds included, are below any bound that
the limit is below, if no more than half as many values are stored. -/
theorem length_mul_lt {bound : Nat} (h : q.Pages limit 0 pages) (hlimit : limit < bound)
    (hsize : 2 * q.size ≤ bound) : pages.length * limit < bound := by
  match pages, h with
  | [], _ => simpa using Nat.zero_lt_of_lt hlimit
  | [_], _ => simpa using hlimit
  | _ :: _ :: rest, h =>
    have hlast := h.last_lt (List.cons_ne_nil _ _)
    simp only [List.length_cons, Nat.add_sub_cancel, Nat.zero_add, Nat.add_mul] at hlast ⊢
    omega

end Pages

/-! ## Values by predicate -/

/-- A predicate with a state is asked of values, of each once and in order. -/
inductive Asked {σ : Type} (p : α → StateM σ Bool) : List α → σ → List Bool → σ → Prop where
  | nil (s : σ) : Asked p [] s [] s
  | cons {v : α} {vs : List α} {s s₁ s' : σ} {answer : Bool} {answers : List Bool}
      (h : (p v).run s = (answer, s₁)) (hrest : Asked p vs s₁ answers s') :
      Asked p (v :: vs) s (answer :: answers) s'

section Asked

variable {σ : Type} {p : α → StateM σ Bool} {vs : List α} {s s' : σ} {answers : List Bool}

theorem exists_asked (p : α → StateM σ Bool) (vs : List α) (s : σ) :
    ∃ answers s', Asked p vs s answers s' := by
  induction vs generalizing s with
  | nil => exact ⟨[], s, .nil s⟩
  | cons v vs ih =>
    obtain ⟨answers, s', h⟩ := ih ((p v).run s).2
    exact ⟨_, s', .cons rfl h⟩

theorem findFrom_run (h : Asked p vs s answers s') (i : Nat) :
    (findFrom p i vs).run s = (answers.findIdxs id i, s') := by
  induction h generalizing i with
  | nil s => rfl
  | @cons v vs s s₁ s' answer answers h _ ih =>
    rw [findFrom, StateT.run_bind, h, List.findIdxs_cons]
    cases answer with
    | false => exact ih (i + 1)
    | true =>
      change (findFrom p (i + 1) vs >>= fun found => pure (i :: found)).run s₁ = _
      rw [StateT.run_bind, ih (i + 1)]
      rfl

/-- A predicate is asked of all values, and the indices of those that it accepts are found. -/
theorem find_run (h : Asked p q.items s answers s') :
    (q.find p).run s = (answers.findIdxs id, s') :=
  findFrom_run h 0

theorem mem_findIdxs_iff {i : Nat} : i ∈ answers.findIdxs id ↔ answers[i]? = some true := by
  rw [List.mem_findIdxs_iff_exists_getElem_pos, List.getElem?_eq_some_iff]
  rfl

/-- The values that are accepted are those at the indices that are found. -/
theorem Asked.filterMap_findIdxs (h : Asked p vs s answers s') (before : List α) :
    (answers.findIdxs id before.length).filterMap (fun i => (before ++ vs)[i]?)
      = ((vs.zip answers).filter Prod.snd).map Prod.fst := by
  induction h generalizing before with
  | nil s => rfl
  | @cons v vs s s₁ s' answer answers h _ ih =>
    have hrest := ih (before ++ [v])
    rw [List.length_append, List.length_singleton, List.append_assoc,
      List.singleton_append] at hrest
    cases answer with
    | false => simpa using hrest
    | true => simpa using hrest

theorem Asked.pick_findIdxs (h : Asked p q.items s answers s') :
    q.pick (answers.findIdxs id) = ((q.items.zip answers).filter Prod.snd).map Prod.fst :=
  h.filterMap_findIdxs []

end Asked

/-! ## The first value that is found -/

theorem findFrom_pure (accepts : α → Bool) (vs : List α) (i : Nat) :
    (findFrom (fun v => (pure (accepts v) : Id Bool)) i vs).run = vs.findIdxs accepts i := by
  induction vs generalizing i with
  | nil => rfl
  | cons v vs ih =>
    rw [List.findIdxs_cons, ← ih (i + 1), findFrom]
    cases accepts v <;> rfl

theorem findIdx?_eq_head?_findIdxs (accepts : α → Bool) (vs : List α) :
    vs.findIdx? accepts = (vs.findIdxs accepts).head? := by
  induction vs with
  | nil => rfl
  | cons v vs ih =>
    rw [List.findIdx?_cons, List.findIdxs_cons]
    split
    · rfl
    · rw [List.findIdxs_start, List.head?_map, ih]

theorem indexOf?_eq_head? [BEq α] (q : Queue α) (target : α) :
    q.indexOf? target = (q.find fun v => (pure (v == target) : Id Bool)).run.head? := by
  rw [indexOf?, findIdx?_eq_head?_findIdxs, ← findFrom_pure]
  rfl

/-! ## All looks -/

/-- **All looks into a queue agree.** Page after page of any size gives the values in order: there
are such pages, none of them is empty and all but the last are full; and the offsets stay below any
bound that the limit is below, if no more than half as many values are stored.

A predicate is asked of each value once, from front to back, in the state that the questions before
have left. The indices that are found are those where it accepted, from front to back, and the
values at these indices are those that it accepted.

A value is found at the first index of one that is equal to it. Values that are picked are those
that are got at the indices that have one, as often as they come and in their order. -/
theorem snapshot_laws [BEq α] (q : Queue α) :
    (∀ limit, 0 < limit → (∃ pages, q.Pages limit 0 pages) ∧
      ∀ pages, q.Pages limit 0 pages → pages.flatten = q.items ∧ (∀ vs ∈ pages, vs ≠ []) ∧
        (∀ vs ∈ pages.dropLast, vs.length = limit) ∧
        ∀ bound, limit < bound → 2 * q.size ≤ bound → pages.length * limit < bound) ∧
      (∀ (σ : Type) (p : α → StateM σ Bool) (s : σ), ∃ answers s' found,
        Asked p q.items s answers s' ∧ (q.find p).run s = (found, s') ∧
          found.Pairwise (· < ·) ∧ (∀ i, i ∈ found ↔ answers[i]? = some true) ∧
          q.pick found = ((q.items.zip answers).filter Prod.snd).map Prod.fst) ∧
      (∀ target, q.indexOf? target
        = (q.find fun v => (pure (v == target) : Id Bool)).run.head?) ∧
      ∀ indices, q.pick indices = indices.filterMap fun i => (q.get i).toOption := by
  refine ⟨fun limit hlimit => ⟨exists_pages q hlimit 0, fun pages h => ?_⟩, fun σ p s => ?_,
    indexOf?_eq_head? q, pick_eq q⟩
  · exact ⟨h.flatten_eq hlimit, h.ne_nil, h.length_eq, fun _ => h.length_mul_lt⟩
  · obtain ⟨answers, s', h⟩ := exists_asked p q.items s
    exact ⟨answers, s', answers.findIdxs id, h, find_run h, List.pairwise_findIdxs,
      fun i => mem_findIdxs_iff, h.pick_findIdxs⟩

/-- Five values, some of them equal. -/
def fiveValues : Queue Nat :=
  ⟨[3, 1, 3, 2, 3], [], [], 0, 0⟩

theorem snapshot_laws_fiveValues :
    0 < 2 ∧ fiveValues.Pages 2 0 [[3, 1], [3, 2], [3]] ∧
      [[3, 1], [3, 2], [3]].flatten = fiveValues.items ∧
      2 < UInt64.size ∧ 2 * fiveValues.size ≤ UInt64.size ∧
      [[3, 1], [3, 2], [3]].length * 2 < UInt64.size := by
  have hlimit : 0 < 2 := by decide
  have hpages : fiveValues.Pages 2 0 [[3, 1], [3, 2], [3]] :=
    .page rfl (.page rfl (.page rfl (.done rfl)))
  have hbound : 2 < UInt64.size := by decide
  have hsize : 2 * fiveValues.size ≤ UInt64.size := by decide
  obtain ⟨hvalues, -, -, hoffsets⟩ := ((snapshot_laws fiveValues).1 2 hlimit).2 _ hpages
  exact ⟨hlimit, hpages, hvalues, hbound, hsize, hoffsets _ hbound hsize⟩

end Depot.Queue
