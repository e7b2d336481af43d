/-
# Lists that are trimmed at the front

A window over the last `k` elements of a list does not see elements that are taken from the front,
as long as `k` of them stay.
-/
import Mathlib

namespace TrimmedList

variable {α : Type*} {k : ℕ}

/-- `kept` is `full` without some elements at the front, and if there are such, `k` are kept. -/
def Trimmed (k : ℕ) (full kept : List α) : Prop :=
  ∃ gone, full = gone ++ kept ∧ (gone = [] ∨ k ≤ kept.length)

theorem Trimmed.refl (k : ℕ) (l : List α) : Trimmed k l l := ⟨[], rfl, .inl rfl⟩

/-- New elements at the end. -/
theorem Trimmed.append {full kept : List α} (h : Trimmed k full kept) (l : List α) :
    Trimmed k (full ++ l) (kept ++ l) := by
  obtain ⟨gone, rfl, hkept⟩ := h
  refine ⟨gone, List.append_assoc gone kept l, hkept.imp_right fun hk => ?_⟩
  rw [List.length_append]
  exact hk.trans (Nat.le_add_right _ _)

/-- One more element is taken. -/
theorem Trimmed.tail {full kept : List α} (h : Trimmed k full kept)
    (hk : k ≤ kept.tail.length) : Trimmed k full kept.tail := by
  obtain ⟨gone, rfl, -⟩ := h
  cases kept with
  | nil =>
    refine ⟨gone, rfl, ?_⟩
    exact .inr hk
  | cons x kept => exact ⟨gone ++ [x], (List.append_cons gone x kept), .inr hk⟩

/-- **The window** over the last elements is the same. -/
theorem Trimmed.take_reverse {full kept : List α} (h : Trimmed k full kept) :
    full.reverse.take k = kept.reverse.take k := by
  obtain ⟨gone, rfl, rfl | hk⟩ := h
  · rfl
  · rw [List.reverse_append, List.take_append_of_le_length (by rwa [List.length_reverse])]

/-! ## Ordered lists -/

variable {f : α → ℕ} {d : ℕ}

/-- In a list in descending order, what is at most `d` is at the end. -/
theorem rdropWhile_eq_takeWhile {l : List α} (h : l.Pairwise (f · > f ·)) :
    l.rdropWhile (f · ≤ d) = l.takeWhile (f · > d) := by
  induction l using List.reverseRecOn with
  | nil => rfl
  | append_singleton l x ih =>
    obtain ⟨hl, -, hx⟩ := List.pairwise_append.mp h
    by_cases hle : f x ≤ d
    · have hpos : (decide (f x ≤ d) : Bool) = true := decide_eq_true hle
      rw [List.rdropWhile_concat, if_pos hpos, ih hl, List.takeWhile_append,
        List.takeWhile_cons_of_neg (by simpa using hle), List.append_nil]
      split_ifs with hall
      · exact (List.takeWhile_prefix _).eq_of_length hall
      · rfl
    · have hneg : ¬ (decide (f x ≤ d) : Bool) = true := by simpa using hle
      rw [List.rdropWhile_concat, if_neg hneg]
      refine (List.takeWhile_eq_self_iff.mpr fun y hy => decide_eq_true ?_).symm
      rcases List.mem_append.mp hy with hy | hy
      · exact (not_le.mp hle).trans (hx y hy x List.mem_cons_self)
      · rw [List.mem_singleton.mp hy]
        exact not_le.mp hle

end TrimmedList
