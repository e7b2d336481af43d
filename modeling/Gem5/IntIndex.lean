/-
# Vectors with integer indices

Reusable infrastructure, with no reference to the simulator.  A program that walks over a vector
with a signed index reads and writes it with a check of both bounds; `at_` is what a read returns,
and zero outside the vector.
-/
import Gem5.Runs

open Runs

namespace IntIndex

variable {α ε : Type*}

/-- A read access, which fails with `e` outside the vector. -/
def read (e : ε) (l : List α) (i : ℤ) : Except ε α :=
  if 0 ≤ i then orFail e l[i.toNat]? else .error e

/-- A write access. -/
def write (e : ε) (l : List α) (i : ℤ) (v : α) : Except ε (List α) :=
  if 0 ≤ i ∧ i < l.length then .ok (l.set i.toNat v) else .error e

variable [Zero α]

/-- The element at an index, zero outside the vector. -/
def at_ (l : List α) (i : ℤ) : α := if 0 ≤ i then l.getD i.toNat 0 else 0

theorem at_natCast (l : List α) (i : ℕ) : at_ l i = l.getD i 0 := if_pos (Int.natCast_nonneg i)

theorem at_neg (l : List α) {i : ℤ} (h : i < 0) : at_ l i = 0 := if_neg (not_le.mpr h)

theorem at_of_length_le {l : List α} {i : ℤ} (h : l.length ≤ i) : at_ l i = 0 := by
  obtain ⟨n, rfl⟩ := Int.eq_ofNat_of_zero_le ((Int.natCast_nonneg _).trans h)
  rw [at_natCast]
  exact List.getD_eq_default _ _ (Int.ofNat_le.mp h)

theorem at_set (l : List α) (n : ℕ) (v : α) (x : ℤ) :
    at_ (l.set n v) x = if x = n then (if n < l.length then v else 0) else at_ l x := by
  rcases lt_or_ge x 0 with hx | hx
  · rw [at_neg _ hx, at_neg _ hx, if_neg]
    intro heq
    exact absurd (heq ▸ hx) (not_lt.mpr (Int.natCast_nonneg n))
  · obtain ⟨m, rfl⟩ := Int.eq_ofNat_of_zero_le hx
    rw [at_natCast, at_natCast, List.getD_eq_getElem?_getD, List.getD_eq_getElem?_getD,
      List.getElem?_set]
    by_cases hm : m = n
    · subst hm
      rw [if_pos rfl, if_pos rfl]
      split_ifs
      · rfl
      · rfl
    · rw [if_neg (Ne.symm hm), if_neg fun heq => hm (Int.ofNat_inj.mp heq)]

/-- **A read in bounds.** -/
theorem read_ok (e : ε) {l : List α} {i : ℤ} (h0 : 0 ≤ i) (h : i < l.length) :
    read e l i = .ok (at_ l i) := by
  obtain ⟨n, rfl⟩ := Int.eq_ofNat_of_zero_le h0
  have hn : n < l.length := Int.ofNat_lt.mp h
  unfold read
  rw [if_pos h0, at_natCast, Int.toNat_natCast, List.getElem?_eq_getElem hn,
    List.getD_eq_getElem _ _ hn]
  rfl

/-- **A write in bounds.** -/
theorem write_ok (e : ε) {l : List α} {i : ℤ} (h0 : 0 ≤ i) (h : i < l.length) (v : α) :
    ∃ l', write e l i v = .ok l' ∧ l'.length = l.length ∧
      ∀ x, at_ l' x = if x = i then v else at_ l x := by
  obtain ⟨n, rfl⟩ := Int.eq_ofNat_of_zero_le h0
  refine ⟨l.set n v, if_pos ⟨h0, h⟩, List.length_set, fun x => ?_⟩
  rw [at_set, if_pos (Int.ofNat_lt.mp h)]

end IntIndex
