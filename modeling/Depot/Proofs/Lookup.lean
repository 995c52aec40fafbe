import Mathlib.Logic.Basic

/-!
# Lookups in lists of pairs

What a lookup finds after a pair was added, pairs were taken out, or values were changed.
-/

namespace Depot

variable {κ β : Type} [DecidableEq κ]

theorem lookup_cons_if (k u : κ) (b : β) (l : List (κ × β)) :
    ((k, b) :: l).lookup u = if u = k then some b else l.lookup u := by
  by_cases h : u = k
  · simp [h]
  · simp [List.lookup_cons, beq_eq_false_iff_ne.mpr h, h]

theorem lookup_filter_ne (t u : κ) (l : List (κ × β)) :
    (l.filter fun c => c.1 != t).lookup u = if u = t then none else l.lookup u := by
  induction l with
  | nil => simp
  | cons c l ih =>
    obtain ⟨k, b⟩ := c
    by_cases hc : k = t
    · rw [List.filter_cons_of_neg (by simp [hc]), ih, lookup_cons_if, hc]
      split <;> rfl
    · rw [List.filter_cons_of_pos (by simp [hc]), lookup_cons_if, lookup_cons_if, ih]
      by_cases hu : u = k
      · simp [hu, hc]
      · simp [hu]

theorem lookup_map_if (g : β → β) (t u : κ) (l : List (κ × β)) :
    (l.map fun c => if c.1 = t then (c.1, g c.2) else c).lookup u
      = if u = t then (l.lookup u).map g else l.lookup u := by
  induction l with
  | nil => simp
  | cons c l ih =>
    obtain ⟨k, b⟩ := c
    rw [List.map_cons, lookup_cons_if]
    by_cases hk : k = t
    · subst hk
      rw [if_pos rfl, lookup_cons_if, ih]
      split <;> simp
    · rw [if_neg hk, lookup_cons_if, ih]
      by_cases hu : u = k
      · simp [hu, hk]
      · simp [hu]

end Depot
