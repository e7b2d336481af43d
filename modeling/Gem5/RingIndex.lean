/-
# Rings addressed by free-running indices

Reusable facts, with no reference to the simulator, about a ring of `n` cells that holds
the last elements of a growing sequence: element `i` of the sequence is in cell
`i % n`.  Writers and readers count their elements for ever; they keep the counts
modulo a power of two, and the ring length divides it.
-/
import Mathlib

namespace RingIndex

variable {α : Type*}

/-- The ring holds the elements of `xs` from number `lo` on. -/
def Holds (ring xs : List α) (lo : ℕ) : Prop :=
  ∀ i, lo ≤ i → i < xs.length → ring[i % ring.length]? = xs[i]?

theorem Holds.mono {ring xs : List α} {lo lo' : ℕ} (h : Holds ring xs lo) (hle : lo ≤ lo') :
    Holds ring xs lo' := fun i hi hlt => h i (le_trans hle hi) hlt

theorem holds_of_le {ring xs : List α} {lo : ℕ} (h : xs.length ≤ lo) : Holds ring xs lo :=
  fun i hi hlt => absurd hlt (by omega)

/-- Numbers that are less than a ring length apart are in different cells. -/
theorem mod_ne_of_lt {i j n : ℕ} (hij : i < j) (hlt : j < i + n) : i % n ≠ j % n := by
  intro heq
  have hdvd : n ∣ j - i := (Nat.modEq_iff_dvd' hij.le).mp heq
  have hle := Nat.le_of_dvd (by omega) hdvd
  omega

/-- **Appending** to the sequence overwrites the cell of an element that is not needed. -/
theorem Holds.push {ring xs : List α} {lo : ℕ} (h : Holds ring xs lo) (x : α)
    (hroom : xs.length < lo + ring.length) :
    Holds (ring.set (xs.length % ring.length) x) (xs ++ [x]) lo := by
  intro i hi hlt
  have hpos : 0 < ring.length := by
    by_contra hzero
    rw [List.length_append, List.length_singleton] at hlt
    omega
  rw [List.length_set]
  rw [List.length_append, List.length_singleton] at hlt
  by_cases heq : i = xs.length
  · subst heq
    rw [List.getElem?_set_self (Nat.mod_lt _ hpos), List.getElem?_append_right le_rfl,
      Nat.sub_self]
    rfl
  · have hne : i % ring.length ≠ xs.length % ring.length := mod_ne_of_lt (by omega) (by omega)
    rw [List.getElem?_set_ne (Ne.symm hne), List.getElem?_append_left (by omega)]
    exact h i hi (by omega)

/-! ## Blocks of cells -/

/-- Cells of one lap follow one another. -/
theorem mod_add_of_lt {i x n : ℕ} (h : i % n + x < n) : (i + x) % n = i % n + x := by
  have hx : x % n = x := Nat.mod_eq_of_lt (by omega)
  rw [Nat.add_mod, hx, Nat.mod_eq_of_lt h]

/-- **Reading** a block that does not reach over the end of the ring. -/
theorem Holds.block {ring xs : List α} {lo k : ℕ} (h : Holds ring xs lo)
    (hend : lo % ring.length + k ≤ ring.length) (hlen : lo + k ≤ xs.length) :
    (ring.drop (lo % ring.length)).take k = (xs.drop lo).take k := by
  refine List.ext_getElem? fun x => ?_
  by_cases hx : x < k
  · rw [List.getElem?_take_of_lt hx, List.getElem?_take_of_lt hx, List.getElem?_drop,
      List.getElem?_drop, ← mod_add_of_lt (by omega)]
    exact h (lo + x) (Nat.le_add_right lo x) (by omega)
  · rw [List.getElem?_eq_none (by rw [List.length_take]; omega),
      List.getElem?_eq_none (by rw [List.length_take]; omega)]

/-- Write a block of cells, from a cell on. -/
def writeBlock (ring : List α) (start : ℕ) : List α → List α
  | [] => ring
  | x :: xs => writeBlock (ring.set start x) (start + 1) xs

theorem length_writeBlock (ring : List α) (start : ℕ) (xs : List α) :
    (writeBlock ring start xs).length = ring.length := by
  induction xs generalizing ring start with
  | nil => rfl
  | cons x xs ih =>
    rw [writeBlock, ih]
    exact List.length_set

/-- The cells outside the block stay. -/
theorem getElem?_writeBlock {ring : List α} {start p : ℕ} {xs : List α}
    (hp : p < start ∨ start + xs.length ≤ p) : (writeBlock ring start xs)[p]? = ring[p]? := by
  induction xs generalizing ring start with
  | nil => rfl
  | cons x xs ih =>
    rw [List.length_cons] at hp
    rw [writeBlock, ih (by omega), List.getElem?_set_ne (by omega)]

/-- **Writing** a block over elements that are not needed. -/
theorem Holds.writeBlock {ring xs block : List α} {lo j : ℕ} (h : Holds ring xs lo)
    (hend : j % ring.length + block.length ≤ ring.length) (hdead : j + block.length ≤ lo)
    (hwrap : xs.length ≤ j + ring.length) :
    Holds (writeBlock ring (j % ring.length) block) xs lo := by
  intro i hi hlt
  rw [length_writeBlock, getElem?_writeBlock, h i hi hlt]
  by_contra hin
  rw [not_or, not_lt, not_le] at hin
  obtain ⟨x, hx⟩ := Nat.exists_eq_add_of_le hin.1
  have hcell := mod_add_of_lt (i := j) (x := x) (n := ring.length) (by omega)
  exact mod_ne_of_lt (i := j + x) (j := i) (n := ring.length) (by omega) (by omega)
    (hcell.trans hx.symm)

/-- Append elements one after the other, each in the cell behind the last. -/
def pushAll (ring : List α) (tail : ℕ) : List α → List α
  | [] => ring
  | x :: xs => pushAll (ring.set tail x) ((tail + 1) % ring.length) xs

theorem length_pushAll (ring : List α) (tail : ℕ) (xs : List α) :
    (pushAll ring tail xs).length = ring.length := by
  induction xs generalizing ring tail with
  | nil => rfl
  | cons x xs ih =>
    rw [pushAll, ih]
    exact List.length_set

/-- **Appending** a list, with room for all of it. -/
theorem Holds.pushAll {ring xs : List α} {lo : ℕ} (h : Holds ring xs lo) {ys : List α}
    (hroom : xs.length + ys.length ≤ lo + ring.length) :
    Holds (pushAll ring (xs.length % ring.length) ys) (xs ++ ys) lo := by
  induction ys generalizing ring xs with
  | nil =>
    rw [List.append_nil]
    exact h
  | cons y ys ih =>
    rw [List.length_cons] at hroom
    have hnext := ih (h.push y (by omega)) (by
      rw [List.length_append, List.length_singleton, List.length_set]
      omega)
    rw [List.length_set, List.length_append, List.length_singleton, List.append_assoc,
      List.singleton_append] at hnext
    rw [RingIndex.pushAll, Nat.mod_add_mod]
    exact hnext

/-! ## Logs of numbered cells -/

/-- The log holds the first elements of `xs`, in order, each with the number of its cell in a
ring of `n` cells. -/
def InSlots (n : ℕ) (log : List (α × ℕ)) (xs : List α) : Prop :=
  log.length ≤ xs.length ∧ ∀ i, i < log.length → log[i]? = xs[i]?.map (·, i % n)

theorem inSlots_nil (n : ℕ) (xs : List α) : InSlots n [] xs :=
  ⟨Nat.zero_le _, fun _ h => absurd h (Nat.not_lt_zero _)⟩

/-- The elements the log does not have yet may change. -/
theorem InSlots.append_right {n : ℕ} {log : List (α × ℕ)} {xs : List α} (h : InSlots n log xs)
    (ys : List α) : InSlots n log (xs ++ ys) := by
  refine ⟨h.1.trans (by rw [List.length_append]; omega), fun i hi => ?_⟩
  rw [List.getElem?_append_left (hi.trans_le h.1)]
  exact h.2 i hi

/-- **A block** of the next elements, from the next cell on, extends the log. -/
theorem InSlots.append_block {n : ℕ} {log : List (α × ℕ)} {xs block : List α}
    (h : InSlots n log xs) (hblock : block <+: xs.drop log.length)
    (hend : log.length % n + block.length ≤ n) :
    InSlots n (log ++ block.zipIdx (log.length % n)) xs := by
  have hlen := hblock.length_le
  rw [List.length_drop] at hlen
  have hle := h.1
  refine ⟨by rw [List.length_append, List.length_zipIdx]; omega, fun i hi => ?_⟩
  rw [List.length_append, List.length_zipIdx] at hi
  by_cases hold : i < log.length
  · rw [List.getElem?_append_left hold]
    exact h.2 i hold
  · obtain ⟨x, rfl⟩ := Nat.exists_eq_add_of_le (not_lt.mp hold)
    have hx : x < block.length := by omega
    rw [List.getElem?_append_right (Nat.le_add_right _ _), Nat.add_sub_cancel_left,
      List.getElem?_zipIdx, mod_add_of_lt (by omega), ← List.getElem?_drop,
      List.getElem?_eq_getElem hx, List.prefix_iff_getElem?.mp hblock x hx]

/-- A prefix of a list, continued with the next element of the list. -/
theorem prefix_append_next {xs ys : List α} (h : xs <+: ys) :
    xs ++ ys[xs.length]?.toList <+: ys := by
  obtain ⟨zs, rfl⟩ := h
  rw [List.getElem?_append_right le_rfl, Nat.sub_self]
  cases zs with
  | nil => exact List.prefix_rfl
  | cons z zs => exact ⟨zs, List.append_assoc _ _ _⟩

/-! ## Wrapped counters -/

/-- A counter that steps up to the end of a lap starts the next one. -/
theorem add_mod_of_le {i k n : ℕ} (h : i % n + k ≤ n) :
    (i + k) % n = if i % n + k = n then 0 else i % n + k := by
  rw [← Nat.mod_add_mod]
  split
  · next heq => rw [heq, Nat.mod_self]
  · next hne => exact Nat.mod_eq_of_lt (by omega)

/-- What is left of the lap when the later counter is further in its own. -/
theorem add_sub_mod_le {i j n : ℕ} (hle : i ≤ j) (hmod : i % n ≤ j % n) :
    i + (j % n - i % n) ≤ j := by
  have hi := Nat.div_add_mod i n
  have hj := Nat.div_add_mod j n
  have hmul : n * (i / n) ≤ n * (j / n) := Nat.mul_le_mul_left n (Nat.div_le_div_right hle)
  omega

/-- The later counter has ended the lap when it is less far in its own. -/
theorem add_end_le {i j n : ℕ} (hle : i ≤ j) (hmod : j % n < i % n) :
    i + (n - i % n) ≤ j := by
  have hi := Nat.div_add_mod i n
  have hj := Nat.div_add_mod j n
  have hlt : i / n < j / n := by
    by_contra hnot
    have heq : i / n = j / n := le_antisymm (Nat.div_le_div_right hle) (not_lt.mp hnot)
    rw [heq] at hi
    omega
  have hmul : n * (i / n + 1) ≤ n * (j / n) := Nat.mul_le_mul_left n hlt
  rw [Nat.mul_add, Nat.mul_one] at hmul
  omega

/-- A wrapped counter selects the cell of the full count. -/
theorem wrapped_mod {n w : ℕ} (hdvd : n ∣ w) (i : ℕ) : (i % w) % n = i % n :=
  Nat.mod_mod_of_dvd i hdvd

/-- Wrapped counters are equal when the counts are, as long as they are close. -/
theorem wrapped_eq_iff {i j w : ℕ} (hle : i ≤ j) (hlt : j < i + w) : i % w = j % w ↔ i = j := by
  constructor
  · intro heq
    by_contra hne
    exact mod_ne_of_lt (by omega) hlt heq
  · exact fun heq => by rw [heq]

end RingIndex
