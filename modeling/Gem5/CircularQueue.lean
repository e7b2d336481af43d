/-
# Circular queues with absolute indices

Embedding of `base/circular_queue.hh`, over an arbitrary element type.  The
queue never reuses an index: `head` only grows, the element of index `i` lives
in slot `i % capacity`, and an iterator is just such an index.  What makes this
work is that the valid indices `head ≤ i < head + size` occupy different slots
as long as `size ≤ capacity` (`slot_injOn`).

The indices are unbounded here.  In the source they have 64 bits, which "would take a very long
time" to use up: every caller advances by one at a time.
-/
import Mathlib

/-- `CircularQueue<T>`.  Only the slots below `capacity` of `data` are used. -/
structure CircularQueue (α : Type*) where
  data : ℕ → α
  capacity : ℕ
  size : ℕ
  head : ℕ

namespace CircularQueue

variable {α : Type*}

/-! ## Operations -/

/-- The constructor: an empty queue, whose first element will have index `1`. -/
def new (capacity : ℕ) (blank : α) : CircularQueue α where
  data := fun _ => blank
  capacity := capacity
  size := 0
  head := 1

/-- `operator[]` -/
def get (q : CircularQueue α) (i : ℕ) : α := q.data (i % q.capacity)

/-- Assignment through `operator[]`. -/
def set (q : CircularQueue α) (i : ℕ) (v : α) : CircularQueue α :=
  { q with data := Function.update q.data (i % q.capacity) v }

def tail (q : CircularQueue α) : ℕ := q.head + q.size - 1

/-- The index `end()` points to. -/
def endIdx (q : CircularQueue α) : ℕ := q.tail + 1

def front (q : CircularQueue α) : α := q.get q.head

def back (q : CircularQueue α) : α := q.get q.tail

def empty (q : CircularQueue α) : Bool := q.size = 0

def full (q : CircularQueue α) : Bool := q.size = q.capacity

/-- `isValidIdx`, as a proposition. -/
def IsValidIdx (q : CircularQueue α) (i : ℕ) : Prop := q.head ≤ i ∧ i < q.head + q.size

instance (q : CircularQueue α) (i : ℕ) : Decidable (q.IsValidIdx i) :=
  inferInstanceAs (Decidable (_ ∧ _))

/-- `pop_front`; `none` when its assertion fails. -/
def popFront (q : CircularQueue α) : Option (CircularQueue α) :=
  if 1 ≤ q.size then some { q with head := q.head + 1, size := q.size - 1 } else none

/-- `pop_back`; `none` when its assertion fails. -/
def popBack (q : CircularQueue α) : Option (CircularQueue α) :=
  if q.empty then none else some { q with size := q.size - 1 }

/-- `advance_tail`: a full queue gives up its oldest element. -/
def advanceTail (q : CircularQueue α) : CircularQueue α :=
  if q.full then { q with head := q.head + 1 } else { q with size := q.size + 1 }

/-- `operator--` of an iterator; `none` when its assertion fails. -/
def prev (q : CircularQueue α) (it : ℕ) : Option ℕ :=
  if it > q.head then some (it - 1) else none

/-! ## Slots -/

/-- A queue whose elements fit its slots. -/
structure Fits (q : CircularQueue α) : Prop where
  size_le : q.size ≤ q.capacity
  head_pos : 1 ≤ q.head

variable {q q' : CircularQueue α}

/-- **Valid indices do not share a slot.** -/
theorem slot_injOn (hq : q.Fits) {i j : ℕ} (hi : q.IsValidIdx i) (hj : q.IsValidIdx j)
    (h : i % q.capacity = j % q.capacity) : i = j := by
  obtain ⟨hi1, hi2⟩ := hi
  obtain ⟨hj1, hj2⟩ := hj
  have hs := hq.size_le
  -- the two indices are congruent and less than one turn apart
  rcases le_total i j with hij | hij
  · have hdvd : q.capacity ∣ j - i := (Nat.modEq_iff_dvd' hij).mp h
    have := Nat.eq_zero_of_dvd_of_lt hdvd (by omega)
    omega
  · have hdvd : q.capacity ∣ i - j := (Nat.modEq_iff_dvd' hij).mp h.symm
    have := Nat.eq_zero_of_dvd_of_lt hdvd (by omega)
    omega

theorem fits_new {capacity : ℕ} (blank : α) : (new capacity blank).Fits :=
  ⟨Nat.zero_le _, le_refl 1⟩

@[simp] theorem set_head (q : CircularQueue α) (i : ℕ) (v : α) : (q.set i v).head = q.head := rfl

@[simp] theorem set_size (q : CircularQueue α) (i : ℕ) (v : α) : (q.set i v).size = q.size := rfl

@[simp] theorem set_capacity (q : CircularQueue α) (i : ℕ) (v : α) :
    (q.set i v).capacity = q.capacity := rfl

@[simp] theorem isValidIdx_set (q : CircularQueue α) (i j : ℕ) (v : α) :
    (q.set i v).IsValidIdx j ↔ q.IsValidIdx j := Iff.rfl

theorem fits_set (hq : q.Fits) (i : ℕ) (v : α) : (q.set i v).Fits :=
  ⟨hq.size_le, hq.head_pos⟩

@[simp] theorem get_set_self (q : CircularQueue α) (i : ℕ) (v : α) : (q.set i v).get i = v := by
  show Function.update q.data (i % q.capacity) v (i % q.capacity) = v
  rw [Function.update_self]

/-- Writing one valid index leaves the others as they were. -/
theorem get_set_of_ne (hq : q.Fits) {i j : ℕ} (hi : q.IsValidIdx i) (hj : q.IsValidIdx j)
    (hne : j ≠ i) (v : α) : (q.set i v).get j = q.get j := by
  show Function.update q.data (i % q.capacity) v (j % q.capacity) = q.data (j % q.capacity)
  rw [Function.update_of_ne fun h => hne (slot_injOn hq hj hi h)]

/-- The same for a write through any index, in terms of a property kept by the write. -/
theorem get_set_cases (q : CircularQueue α) (i j : ℕ) (v : α) :
    (q.set i v).get j = q.get j ∨
      (j % q.capacity = i % q.capacity ∧ (q.set i v).get j = v) := by
  by_cases h : j % q.capacity = i % q.capacity
  · right
    refine ⟨h, ?_⟩
    show Function.update q.data (i % q.capacity) v (j % q.capacity) = v
    rw [h, Function.update_self]
  · left
    show Function.update q.data (i % q.capacity) v (j % q.capacity) = q.data (j % q.capacity)
    rw [Function.update_of_ne h]

/-! ## Ends -/

theorem endIdx_eq (hq : q.Fits) : q.endIdx = q.head + q.size := by
  have := hq.head_pos
  unfold endIdx tail
  omega

theorem popFront_eq_some (h : q.popFront = some q') :
    1 ≤ q.size ∧ q' = { q with head := q.head + 1, size := q.size - 1 } := by
  unfold popFront at h
  split at h
  · rename_i hs
    exact ⟨hs, (Option.some.inj h).symm⟩
  · cases h

theorem popBack_eq_some (h : q.popBack = some q') :
    1 ≤ q.size ∧ q' = { q with size := q.size - 1 } := by
  unfold popBack at h
  split at h
  · cases h
  · rename_i hs
    have : q.size ≠ 0 := by simpa [empty] using hs
    exact ⟨by omega, (Option.some.inj h).symm⟩

theorem advanceTail_of_not_full (h : q.full = false) :
    q.advanceTail = { q with size := q.size + 1 } := by
  unfold advanceTail
  rw [h]
  rfl

/-- Growing a queue that is not full keeps it in its slots. -/
theorem fits_advanceTail (hq : q.Fits) (h : q.full = false) :
    q.advanceTail.Fits := by
  have hne : q.size ≠ q.capacity := by simpa [full] using h
  rw [advanceTail_of_not_full h]
  exact ⟨Nat.lt_of_le_of_ne hq.size_le hne, hq.head_pos⟩

theorem fits_popFront (hq : q.Fits) (h : q.popFront = some q') :
    q'.Fits := by
  obtain ⟨_, rfl⟩ := popFront_eq_some h
  exact ⟨(Nat.sub_le _ _).trans hq.size_le, hq.head_pos.trans (Nat.le_succ _)⟩

theorem fits_popBack (hq : q.Fits) (h : q.popBack = some q') :
    q'.Fits := by
  obtain ⟨_, rfl⟩ := popBack_eq_some h
  exact ⟨(Nat.sub_le _ _).trans hq.size_le, hq.head_pos⟩

end CircularQueue
