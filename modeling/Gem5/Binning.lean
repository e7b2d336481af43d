/-
# Counting weighted values by intervals

Reusable infrastructure, with no reference to the simulator.  A list of values with weights is
counted over half-open intervals.  Adjacent intervals add up (`count_split`, `sum_count`), and
intervals that together hold every value count the whole weight (`count_eq_total`).
-/
import Mathlib.Algebra.Order.BigOperators.Group.List
import Mathlib.Algebra.BigOperators.Group.List.Basic
import Mathlib.Order.Basic
import Mathlib.Tactic

namespace Binning

variable {α M : Type*}

section Total

variable [AddCommMonoid M]

/-- The weight of all values. -/
def total (l : List (α × M)) : M := (l.map Prod.snd).sum

@[simp] theorem total_nil : total ([] : List (α × M)) = 0 := rfl

theorem total_cons (x : α × M) (l : List (α × M)) : total (x :: l) = x.2 + total l := by
  rw [total, List.map_cons, List.sum_cons]
  rfl

theorem total_append (l l' : List (α × M)) : total (l ++ l') = total l + total l' := by
  rw [total, List.map_append, List.sum_append]
  rfl

end Total

/-- The values that are not below `b`. -/
def notBelow [LinearOrder α] (b : α) (l : List (α × M)) : List (α × M) := l.filter fun x => b ≤ x.1

theorem mem_notBelow [LinearOrder α] {b : α} {l : List (α × M)} {x : α × M} :
    x ∈ notBelow b l ↔ x ∈ l ∧ b ≤ x.1 := by
  rw [notBelow, List.mem_filter, decide_eq_true_eq]

section Count

variable [LinearOrder α] [AddCommMonoid M]

/-- The weight of the values in `[a, b)`. -/
def count (l : List (α × M)) (a b : α) : M :=
  (l.map fun x => if a ≤ x.1 ∧ x.1 < b then x.2 else 0).sum

@[simp] theorem count_nil (a b : α) : count ([] : List (α × M)) a b = 0 := rfl

theorem count_cons (x : α × M) (l : List (α × M)) (a b : α) :
    count (x :: l) a b = (if a ≤ x.1 ∧ x.1 < b then x.2 else 0) + count l a b := by
  rw [count, List.map_cons, List.sum_cons]
  rfl

theorem count_append (l l' : List (α × M)) (a b : α) :
    count (l ++ l') a b = count l a b + count l' a b := by
  rw [count, List.map_append, List.sum_append]
  rfl

/-- **An interval is counted in two parts.** -/
theorem count_split {a b c : α} (hab : a ≤ b) (hbc : b ≤ c) (l : List (α × M)) :
    count l a c = count l a b + count l b c := by
  induction l with
  | nil => exact (add_zero 0).symm
  | cons x l ih =>
    rw [count_cons, count_cons, count_cons, ih, add_add_add_comm]
    congr 1
    rcases lt_or_ge x.1 b with hx | hx
    · rw [if_neg (fun h : b ≤ x.1 ∧ x.1 < c => absurd h.1 (not_le.mpr hx)), add_zero]
      exact if_congr ⟨fun h => ⟨h.1, hx⟩, fun h => ⟨h.1, hx.trans_le hbc⟩⟩ rfl rfl
    · rw [if_neg (fun h : a ≤ x.1 ∧ x.1 < b => absurd h.2 (not_lt.mpr hx)), zero_add]
      exact if_congr ⟨fun h => ⟨hx, h.2⟩, fun h => ⟨hab.trans hx, h.2⟩⟩ rfl rfl

/-- An interval without a value counts nothing. -/
theorem count_eq_zero {l : List (α × M)} {a b : α} (h : ∀ x ∈ l, ¬ (a ≤ x.1 ∧ x.1 < b)) :
    count l a b = 0 := by
  induction l with
  | nil => rfl
  | cons x l ih =>
    rw [count_cons, if_neg (h x List.mem_cons_self), zero_add]
    exact ih fun y hy => h y (List.mem_cons_of_mem x hy)

/-- An interval that holds every value counts the whole weight. -/
theorem count_eq_total {l : List (α × M)} {a b : α} (h : ∀ x ∈ l, a ≤ x.1 ∧ x.1 < b) :
    count l a b = total l := by
  unfold count total
  exact congrArg List.sum (List.map_congr_left fun x hx => if_pos (h x hx))

/-- **Consecutive intervals add up.** -/
theorem sum_count {f : ℕ → α} (hf : Monotone f) (l : List (α × M)) (n : ℕ) :
    ((List.range n).map fun i => count l (f i) (f (i + 1))).sum = count l (f 0) (f n) := by
  induction n with
  | zero => exact (count_eq_zero fun x _ h => absurd (h.1.trans_lt h.2) (lt_irrefl _)).symm
  | succ n ih =>
    rw [List.range_succ, List.map_append, List.sum_append, ih, List.map_singleton,
      List.sum_singleton]
    exact (count_split (hf (Nat.zero_le n)) (hf (Nat.le_succ n)) l).symm

/-- Behind the bound, the values are counted as before. -/
theorem count_notBelow {a b c : α} (h : b ≤ a) (l : List (α × M)) :
    count (notBelow b l) a c = count l a c := by
  induction l with
  | nil => rfl
  | cons x l ih =>
    unfold notBelow
    rw [List.filter_cons]
    by_cases hx : b ≤ x.1
    · rw [if_pos (decide_eq_true hx), count_cons, count_cons]
      exact congrArg _ ih
    · rw [if_neg (by rw [decide_eq_true_eq]; exact hx), count_cons,
        if_neg fun hax => hx (h.trans hax.1), zero_add]
      exact ih

/-- What is left out lies below the bound. -/
theorem total_notBelow {a b c : α} (hab : a ≤ b) (hbc : b ≤ c) {l : List (α × M)}
    (h : ∀ x ∈ l, a ≤ x.1 ∧ x.1 < c) : total l = count l a b + total (notBelow b l) := by
  have hfrom : ∀ x ∈ notBelow b l, b ≤ x.1 ∧ x.1 < c := fun x hx =>
    ⟨(mem_notBelow.mp hx).2, (h x (mem_notBelow.mp hx).1).2⟩
  rw [← count_eq_total h, count_split hab hbc, ← count_eq_total hfrom, count_notBelow le_rfl]

end Count

/-- Weights that are not negative do not count below zero. -/
theorem count_nonneg [LinearOrder α] [AddCommMonoid M] [PartialOrder M] [IsOrderedAddMonoid M]
    {l : List (α × M)} (h : ∀ x ∈ l, 0 ≤ x.2) (a b : α) : 0 ≤ count l a b := by
  refine List.sum_nonneg fun y hy => ?_
  obtain ⟨x, hx, rfl⟩ := List.mem_map.mp hy
  split_ifs
  · exact h x hx
  · exact le_rfl

end Binning
