/-
# Least recently used caches of different sizes

Reusable infrastructure, with no reference to the simulator.  The contents of a fully associative
cache with least recently used replacement are the first entries of one list, the stack, whatever
the size of the cache.  So an access hits in a cache of `c` entries exactly when its distance on
the stack is below `c`, and two caches have the same number of hits exactly when no access has a
distance between their sizes.
-/
import Mathlib

namespace LruStack

variable {κ : Type*} [DecidableEq κ]

/-- The most recently used entries first, with `x` used. -/
def touch (stack : List κ) (x : κ) : List κ := x :: stack.erase x

/-- An access to a cache of `c` entries, most recently used first: the entry moves to the front or
comes in there, and the least recently used one goes if there are too many. -/
def access (c : ℕ) (cache : List κ) (x : κ) : List κ := (touch cache x).take c

/-- For each access, whether it hits. -/
def outcomes (c : ℕ) : List κ → List κ → List Bool
  | _, [] => []
  | cache, x :: xs => decide (x ∈ cache) :: outcomes c (access c cache x) xs

/-- The number of hits in a cache that is empty at first. -/
def hits (c : ℕ) (xs : List κ) : ℕ := (outcomes c [] xs).count true

/-- The number of misses. -/
def misses (c : ℕ) (xs : List κ) : ℕ := (outcomes c [] xs).count false

/-- No access has a stack distance of at least `lo` and below `hi`. -/
def NoneBetween (lo hi : ℕ) : List κ → List κ → Prop
  | _, [] => True
  | stack, x :: xs =>
      ¬ (x ∈ stack ∧ lo ≤ stack.idxOf x ∧ stack.idxOf x < hi) ∧
        NoneBetween lo hi (touch stack x) xs

instance (lo hi : ℕ) : (stack xs : List κ) → Decidable (NoneBetween lo hi stack xs)
  | _, [] => .isTrue trivial
  | stack, x :: xs =>
      have := instDecidableNoneBetween lo hi (touch stack x) xs
      inferInstanceAs (Decidable (_ ∧ _))

/-! ## The stack -/

theorem access_of_mem {cache : List κ} {c p : ℕ} {x : κ} (hnodup : cache.Nodup)
    (hle : cache.length ≤ c) (hp : cache[p]? = some x) :
    access c cache x = x :: cache.eraseIdx p := by
  obtain ⟨hlt, rfl⟩ := List.getElem?_eq_some_iff.mp hp
  have hlen := List.length_eraseIdx_of_lt hlt
  unfold access touch
  rw [hnodup.erase_getElem, List.take_of_length_le (by rw [List.length_cons]; omega)]

theorem access_of_not_mem {cache : List κ} {c : ℕ} {x : κ} (hc : 0 < c) (hx : x ∉ cache) :
    access c cache x = x :: cache.take (c - 1) := by
  obtain ⟨c, rfl⟩ := Nat.exists_eq_succ_of_ne_zero hc.ne'
  unfold access touch
  rw [List.erase_of_not_mem hx, List.take_succ_cons]
  rfl

theorem outcomes_cons {cache : List κ} {c : ℕ} {x : κ} {hit : Bool} (h : hit = true ↔ x ∈ cache)
    (xs : List κ) : outcomes c cache (x :: xs) = hit :: outcomes c (access c cache x) xs := by
  have hdecide : decide (x ∈ cache) = hit := by
    rw [Bool.eq_iff_iff, decide_eq_true_eq, h]
  rw [outcomes, hdecide]

/-! ## Hits of two caches -/

/-- Where no access has a distance between two sizes, none has one between closer sizes. -/
theorem NoneBetween.mono {lo lo' hi : ℕ} (hlo : lo ≤ lo') {xs : List κ} :
    ∀ {stack : List κ}, NoneBetween lo hi stack xs → NoneBetween lo' hi stack xs := by
  induction xs with
  | nil => exact fun _ => trivial
  | cons x xs ih =>
    intro stack h
    exact ⟨fun hx => h.1 ⟨hx.1, hlo.trans hx.2.1, hx.2.2⟩, ih h.2⟩

end LruStack
