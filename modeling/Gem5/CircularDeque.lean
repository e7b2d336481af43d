/-
# A circular queue as a bounded deque

The abstract deque keeps the elements behind an absolute first index.  A push puts one element at
the end and keeps the last `capacity` of them; `advance_tail` pushes an element that nobody has
written yet.

The queue of `base/circular_queue.hh` has indices of 64 bits.  They only grow, and "in theory the
index may overflow at some point".  As long as the index behind the last element of the deque stays
below `2 ^ 64`, the queue holds at index `head() + k` what the deque has as its element `k`, and
stops where the deque does (`run_refines_deque`); one `advance_tail(len)` can take it over that
bound (`advance_tail_overflows`).  In between stands the queue with unbounded indices, which the
load and store queues use: they advance by one at a time.
-/
import Gem5.CircularQueue
import Gem5.Runs

open Runs

/-! ## The other operations, with unbounded indices -/

namespace CircularQueue

variable {α : Type}

/-- `flush()` -/
def flush (q : CircularQueue α) : CircularQueue α := { q with head := 1, size := 0 }

/-- `pop_front(num_elem)`; `none` when its assertion fails. -/
def popFrontBy (q : CircularQueue α) (numElem : ℕ) : Option (CircularQueue α) :=
  if numElem ≤ q.size then some { q with head := q.head + numElem, size := q.size - numElem }
  else none

/-- `push_back(val)` -/
def pushBack (q : CircularQueue α) (val : α) : CircularQueue α :=
  q.advanceTail.set q.advanceTail.tail val

/-- `advance_tail(len)` -/
def advanceTailBy (q : CircularQueue α) (len : ℕ) : CircularQueue α :=
  let remaining := q.capacity - q.size
  if len > remaining then
    let overflow := len - remaining
    { q with head := q.head + overflow, size := q.size + (len - overflow) }
  else { q with size := q.size + len }

/-- The assertions of the queue. -/
inductive Fault
  | popFront
  | popBack
  deriving DecidableEq, Repr

inductive Op (α : Type)
  | pushBack (val : α)
  | popFront (numElem : BitVec 64)
  | popBack
  | flush
  | advanceTail
  | advanceTailBy (len : BitVec 64)

def step (q : CircularQueue α) : Op α → Except Fault (CircularQueue α)
  | .pushBack val => .ok (q.pushBack val)
  | .popFront numElem => orFail .popFront (q.popFrontBy numElem.toNat)
  | .popBack => orFail .popBack q.popBack
  | .flush => .ok q.flush
  | .advanceTail => .ok q.advanceTail
  | .advanceTailBy len => .ok (q.advanceTailBy len.toNat)

/-- Where the ends of the queue are after `len` steps of the tail. -/
theorem advanceTailBy_eq {q : CircularQueue α} (hq : q.size ≤ q.capacity) (len : ℕ) :
    q.advanceTailBy len = { q with
      head := q.head + (q.size + len - q.capacity)
      size := q.size + len - (q.size + len - q.capacity) } := by
  unfold advanceTailBy
  dsimp only
  split
  · congr 1 <;> omega
  · congr 1 <;> omega

theorem advanceTail_eq {q : CircularQueue α} (hq : q.size ≤ q.capacity) :
    q.advanceTail = q.advanceTailBy 1 := by
  rw [advanceTailBy_eq hq]
  unfold advanceTail full
  by_cases hfull : q.size = q.capacity
  · rw [if_pos (decide_eq_true hfull)]
    congr 1 <;> omega
  · rw [if_neg fun h => hfull (of_decide_eq_true h)]
    congr 1
    · omega
    · omega

theorem Fits.advanceTail {q : CircularQueue α} (hq : q.Fits) : q.advanceTail.Fits := by
  cases h : q.full with
  | false => exact fits_advanceTail hq h
  | true =>
    rw [CircularQueue.advanceTail, if_pos h]
    exact ⟨hq.size_le, hq.head_pos.trans (Nat.le_succ _)⟩

/-- Advancing by a number of steps is advancing by one that many times. -/
theorem advanceTailBy_succ {q : CircularQueue α} (hq : q.size ≤ q.capacity) (len : ℕ) :
    q.advanceTailBy (len + 1) = q.advanceTail.advanceTailBy len := by
  rw [advanceTail_eq hq, advanceTailBy_eq hq, advanceTailBy_eq hq, advanceTailBy_eq]
  · dsimp only
    congr 1 <;> omega
  · dsimp only
    omega

end CircularQueue

/-! ## The queue with its indices of 64 bits -/

/-- `CircularQueue<T>` with the `size_t` fields that it has. -/
structure CircularQueue64 (α : Type) where
  data : ℕ → α
  capacity : BitVec 64
  size : BitVec 64
  head : BitVec 64

namespace CircularQueue64

variable {α : Type}

def new (capacity : BitVec 64) (blank : α) : CircularQueue64 α where
  data _ := blank
  capacity := capacity
  size := 0
  head := 1

/-- `operator[]` -/
def get (q : CircularQueue64 α) (i : BitVec 64) : α := q.data (i % q.capacity).toNat

/-- Assignment through `operator[]`. -/
def set (q : CircularQueue64 α) (i : BitVec 64) (v : α) : CircularQueue64 α :=
  { q with data := Function.update q.data (i % q.capacity).toNat v }

def tail (q : CircularQueue64 α) : BitVec 64 := q.head + q.size - 1

def empty (q : CircularQueue64 α) : Bool := q.size = 0

def full (q : CircularQueue64 α) : Bool := q.size = q.capacity

/-- `isValidIdx`, as a proposition. -/
def IsValidIdx (q : CircularQueue64 α) (i : BitVec 64) : Prop := q.head ≤ i ∧ i < q.head + q.size

def flush (q : CircularQueue64 α) : CircularQueue64 α := { q with head := 1, size := 0 }

/-- `pop_front`; `none` when its assertion fails. -/
def popFront (q : CircularQueue64 α) (numElem : BitVec 64) : Option (CircularQueue64 α) :=
  if numElem ≤ q.size then some { q with head := q.head + numElem, size := q.size - numElem }
  else none

/-- `pop_back`; `none` when its assertion fails. -/
def popBack (q : CircularQueue64 α) : Option (CircularQueue64 α) :=
  if q.empty then none else some { q with size := q.size - 1 }

def advanceTail (q : CircularQueue64 α) : CircularQueue64 α :=
  if q.full then { q with head := q.head + 1 } else { q with size := q.size + 1 }

def pushBack (q : CircularQueue64 α) (val : α) : CircularQueue64 α :=
  q.advanceTail.set q.advanceTail.tail val

/-- `advance_tail(len)` -/
def advanceTailBy (q : CircularQueue64 α) (len : BitVec 64) : CircularQueue64 α :=
  let remaining := q.capacity - q.size
  if len > remaining then
    let overflow := len - remaining
    { q with head := q.head + overflow, size := q.size + (len - overflow) }
  else { q with size := q.size + len }

def step (q : CircularQueue64 α) :
    CircularQueue.Op α → Except CircularQueue.Fault (CircularQueue64 α)
  | .pushBack val => .ok (q.pushBack val)
  | .popFront numElem => orFail .popFront (q.popFront numElem)
  | .popBack => orFail .popBack q.popBack
  | .flush => .ok q.flush
  | .advanceTail => .ok q.advanceTail
  | .advanceTailBy len => .ok (q.advanceTailBy len)

/-- The queue with unbounded indices that it stands for. -/
def unbounded (q : CircularQueue64 α) : CircularQueue α where
  data := q.data
  capacity := q.capacity.toNat
  size := q.size.toNat
  head := q.head.toNat

theorem get_unbounded (q : CircularQueue64 α) (i : BitVec 64) :
    q.get i = q.unbounded.get i.toNat := by
  rw [get, BitVec.toNat_umod]
  rfl

theorem set_unbounded (q : CircularQueue64 α) (i : BitVec 64) (v : α) :
    (q.set i v).unbounded = q.unbounded.set i.toNat v := by
  rw [set, BitVec.toNat_umod]
  rfl

theorem tail_unbounded {q : CircularQueue64 α} (hq : q.unbounded.Fits)
    (hend : q.unbounded.head + q.unbounded.size < 2 ^ 64) : q.tail.toNat = q.unbounded.tail := by
  have hpos : 1 ≤ q.head.toNat := hq.head_pos
  have hend : q.head.toNat + q.size.toNat < 2 ^ 64 := hend
  show (q.head + q.size - 1).toNat = q.head.toNat + q.size.toNat - 1
  bv_omega

theorem advanceTail_unbounded {q : CircularQueue64 α}
    (hend : q.unbounded.advanceTail.head + q.unbounded.advanceTail.size < 2 ^ 64) :
    q.advanceTail.unbounded = q.unbounded.advanceTail := by
  have hfull : q.unbounded.full = q.full := by
    simp [CircularQueue.full, full, unbounded, BitVec.toNat_inj]
  unfold CircularQueue.advanceTail advanceTail at *
  rw [hfull] at hend ⊢
  by_cases h : q.full = true
  · rw [if_pos h] at hend ⊢
    have hend : q.head.toNat + 1 + q.size.toNat < 2 ^ 64 := hend
    have hhead : (q.head + 1).toNat = q.head.toNat + 1 := by bv_omega
    simp only [unbounded, hhead, if_pos h]
  · rw [if_neg h] at hend ⊢
    have hend : q.head.toNat + (q.size.toNat + 1) < 2 ^ 64 := hend
    have hsize : (q.size + 1).toNat = q.size.toNat + 1 := by bv_omega
    simp only [unbounded, hsize, if_neg h]

theorem pushBack_unbounded {q : CircularQueue64 α} (hq : q.unbounded.Fits) (val : α)
    (hend : q.unbounded.advanceTail.head + q.unbounded.advanceTail.size < 2 ^ 64) :
    (q.pushBack val).unbounded = q.unbounded.pushBack val := by
  have hadv := advanceTail_unbounded hend
  rw [pushBack, set_unbounded, tail_unbounded (hadv ▸ hq.advanceTail) (hadv ▸ hend), hadv]
  rfl

theorem advanceTailBy_unbounded {q : CircularQueue64 α} (hq : q.unbounded.Fits) (len : BitVec 64)
    (hend : (q.unbounded.advanceTailBy len.toNat).head +
      (q.unbounded.advanceTailBy len.toNat).size < 2 ^ 64) :
    (q.advanceTailBy len).unbounded = q.unbounded.advanceTailBy len.toNat := by
  have hle : q.size.toNat ≤ q.capacity.toNat := hq.size_le
  have hremaining : (q.capacity - q.size).toNat = q.capacity.toNat - q.size.toNat := by bv_omega
  have hlt : len > q.capacity - q.size ↔ len.toNat > q.capacity.toNat - q.size.toNat := by
    rw [gt_iff_lt, BitVec.lt_def, hremaining]
  unfold CircularQueue.advanceTailBy advanceTailBy at *
  dsimp only [unbounded] at hend ⊢
  by_cases h : len > q.capacity - q.size
  · rw [if_pos (hlt.mp h)] at hend ⊢
    dsimp only at hend
    rw [if_pos h]
    have hover : (len - (q.capacity - q.size)).toNat =
        len.toNat - (q.capacity.toNat - q.size.toNat) := by bv_omega
    have hhead : (q.head + (len - (q.capacity - q.size))).toNat =
        q.head.toNat + (len.toNat - (q.capacity.toNat - q.size.toNat)) := by
      rw [BitVec.toNat_add, hover]
      exact Nat.mod_eq_of_lt (by omega)
    have hsize : (q.size + (len - (len - (q.capacity - q.size)))).toNat =
        q.size.toNat + (len.toNat - (len.toNat - (q.capacity.toNat - q.size.toNat))) := by
      bv_omega
    rw [hhead, hsize]
  · rw [if_neg (hlt.not.mp h)] at hend ⊢
    dsimp only at hend
    rw [if_neg h]
    have hsize : (q.size + len).toNat = q.size.toNat + len.toNat := by bv_omega
    rw [hsize]

/-- **Every operation** that leaves the indices below `2 ^ 64` is the one with unbounded indices. -/
theorem step_unbounded {q : CircularQueue64 α} (hq : q.unbounded.Fits) (op : CircularQueue.Op α)
    (hend : ∀ r, q.unbounded.step op = .ok r → r.head + r.size < 2 ^ 64) :
    (q.step op).map unbounded = q.unbounded.step op := by
  cases op with
  | pushBack val =>
    exact congrArg _ (pushBack_unbounded hq val (hend (q.unbounded.pushBack val) rfl))
  | popFront numElem =>
    by_cases hnum : numElem ≤ q.size
    · have hnum' : numElem.toNat ≤ q.size.toNat := hnum
      have hsome : q.unbounded.popFrontBy numElem.toNat = some { q.unbounded with
          head := q.head.toNat + numElem.toNat, size := q.size.toNat - numElem.toNat } :=
        if_pos hnum'
      have hend := hend _ (orFail_eq_ok.mpr hsome)
      dsimp only at hend
      have hhead : (q.head + numElem).toNat = q.head.toNat + numElem.toNat := by bv_omega
      have hsize : (q.size - numElem).toNat = q.size.toNat - numElem.toNat := by bv_omega
      rw [step, popFront, if_pos hnum, CircularQueue.step, hsome, ← hhead, ← hsize]
      rfl
    · have hnone : q.unbounded.popFrontBy numElem.toNat = none := if_neg hnum
      rw [step, popFront, if_neg hnum, CircularQueue.step, hnone]
      rfl
  | popBack =>
    have hempty : q.unbounded.empty = q.empty :=
      decide_eq_decide.mpr (BitVec.toNat_eq (x := q.size) (y := 0)).symm
    rw [step, popBack, CircularQueue.step, CircularQueue.popBack, hempty]
    by_cases h : q.empty = true
    · rw [if_pos h, if_pos h]
      rfl
    · have hne : q.size ≠ 0 := fun h0 => h (decide_eq_true h0)
      have hsize : (q.size - 1).toNat = q.size.toNat - 1 := by bv_omega
      rw [if_neg h, if_neg h]
      show Except.ok ({ q with size := q.size - 1 } : CircularQueue64 α).unbounded = _
      rw [unbounded, hsize]
      rfl
  | flush => rfl
  | advanceTail => exact congrArg _ (advanceTail_unbounded (hend _ rfl))
  | advanceTailBy len => exact congrArg _ (advanceTailBy_unbounded hq len (hend _ rfl))

end CircularQueue64

/-! ## The deque -/

/-- A deque of elements with absolute indices; an element that was not written is `none`. -/
structure BoundedDeque (α : Type) where
  first : ℕ
  elems : List (Option α)

namespace BoundedDeque

variable {α : Type}

/-- Put an element at the end; a full deque drops the oldest one. -/
def push (capacity : ℕ) (d : BoundedDeque α) (e : Option α) : BoundedDeque α :=
  if d.elems.length = capacity then ⟨d.first + 1, d.elems.tail ++ [e]⟩
  else ⟨d.first, d.elems ++ [e]⟩

def step (capacity : ℕ) (d : BoundedDeque α) :
    CircularQueue.Op α → Except CircularQueue.Fault (BoundedDeque α)
  | .pushBack val => .ok (d.push capacity (some val))
  | .popFront numElem =>
      if numElem.toNat ≤ d.elems.length then
        .ok ⟨d.first + numElem.toNat, d.elems.drop numElem.toNat⟩
      else .error .popFront
  | .popBack => if d.elems = [] then .error .popBack else .ok ⟨d.first, d.elems.dropLast⟩
  | .flush => .ok ⟨1, []⟩
  | .advanceTail => .ok (d.push capacity none)
  | .advanceTailBy len => .ok ((push capacity · none)^[len.toNat] d)

/-- A push keeps the last `capacity` elements. -/
theorem push_eq {capacity : ℕ} (d : BoundedDeque α) (e : Option α)
    (hd : d.elems.length ≤ capacity) :
    d.push capacity e = ⟨d.first + (d.elems.length + 1 - capacity),
      d.elems.drop (d.elems.length + 1 - capacity) ++ [e]⟩ := by
  unfold push
  split
  · rename_i hfull
    rw [hfull, Nat.add_sub_cancel_left, List.drop_one]
  · rw [Nat.sub_eq_zero_of_le (by omega), Nat.add_zero, List.drop_zero]

end BoundedDeque

/-! ## Refinement -/

namespace CircularQueue

variable {α : Type} {capacity : ℕ} {q : CircularQueue α} {d : BoundedDeque α}

/-- The queue holds the deque. -/
structure Holds (capacity : ℕ) (q : CircularQueue α) (d : BoundedDeque α) : Prop where
  capacity : q.capacity = capacity
  head : q.head = d.first
  size : q.size = d.elems.length
  fits : q.Fits
  get : ∀ k v, d.elems[k]? = some (some v) → q.get (q.head + k) = v

theorem Holds.length_le (h : Holds capacity q d) : d.elems.length ≤ capacity := by
  rw [← h.size, ← h.capacity]
  exact h.fits.size_le

/-- A new last element that nobody has written. -/
theorem Holds.advanceTail (hpos : 0 < capacity) (h : Holds capacity q d) :
    Holds capacity q.advanceTail (d.push capacity none) := by
  rw [BoundedDeque.push_eq d none h.length_le]
  obtain ⟨rfl, hhead, hsize, hfits, hget⟩ := h
  have hle := hfits.size_le
  have hheadPos := hfits.head_pos
  rw [advanceTail_eq hle, advanceTailBy_eq hle, ← hsize, ← hhead]
  refine ⟨rfl, rfl, ?_, ⟨?_, ?_⟩, fun k v hv => ?_⟩
  · rw [List.length_append, List.length_drop, List.length_singleton, ← hsize]
    dsimp only
    omega
  · dsimp only
    omega
  · dsimp only
    omega
  · dsimp only at hv ⊢
    have hold : (d.elems.drop (q.size + 1 - q.capacity))[k]? = some (some v) := by
      rcases Nat.lt_or_ge k (d.elems.drop (q.size + 1 - q.capacity)).length with hlt | hge
      · rw [List.getElem?_append_left hlt] at hv
        exact hv
      · rw [List.getElem?_append_right hge, List.getElem?_singleton] at hv
        split at hv <;> simp at hv
    rw [List.getElem?_drop] at hold
    rw [Nat.add_assoc]
    exact hget _ v hold

/-- Writing the last element. -/
theorem Holds.setTail {first : ℕ} {xs : List (Option α)} {e : Option α}
    (h : Holds capacity q ⟨first, xs ++ [e]⟩) (val : α) :
    Holds capacity (q.set q.tail val) ⟨first, xs ++ [some val]⟩ := by
  obtain ⟨hcap, hhead, hsize, hfits, hget⟩ := h
  rw [List.length_append, List.length_singleton] at hsize
  have hheadPos := hfits.head_pos
  have htail : q.tail = q.head + xs.length := by
    unfold tail
    omega
  refine ⟨hcap, hhead, ?_, fits_set hfits _ _, fun k v hv => ?_⟩
  · rw [List.length_append, List.length_singleton]
    exact hsize
  · rw [set_head]
    rcases Nat.lt_trichotomy k xs.length with hlt | rfl | hgt
    · rw [List.getElem?_append_left hlt] at hv
      have hold := hget k v (by rw [List.getElem?_append_left hlt]; exact hv)
      rw [get_set_of_ne hfits ⟨by omega, by omega⟩ ⟨by omega, by omega⟩ (by omega)]
      exact hold
    · rw [List.getElem?_append_right le_rfl, Nat.sub_self, List.getElem?_cons_zero,
        Option.some.injEq, Option.some.injEq] at hv
      rw [htail, get_set_self]
      exact hv
    · rw [List.getElem?_eq_none (by rw [List.length_append, List.length_singleton]; omega)] at hv
      cases hv

theorem Holds.pushBack (hpos : 0 < capacity) (h : Holds capacity q d) (val : α) :
    Holds capacity (q.pushBack val) (d.push capacity (some val)) := by
  have hadv := h.advanceTail hpos
  rw [BoundedDeque.push_eq d _ h.length_le] at hadv ⊢
  exact hadv.setTail val

theorem Holds.advanceTailBy (hpos : 0 < capacity) (h : Holds capacity q d) (len : ℕ) :
    Holds capacity (q.advanceTailBy len) ((BoundedDeque.push capacity · none)^[len] d) := by
  induction len generalizing q d with
  | zero => exact h
  | succ len ih =>
    rw [advanceTailBy_succ h.fits.size_le, Function.iterate_succ_apply]
    exact ih (h.advanceTail hpos)

theorem Holds.popFrontBy (h : Holds capacity q d) {numElem : ℕ}
    (hnum : numElem ≤ d.elems.length) :
    ∃ q', q.popFrontBy numElem = some q' ∧
      Holds capacity q' ⟨d.first + numElem, d.elems.drop numElem⟩ := by
  obtain ⟨hcap, hhead, hsize, hfits, hget⟩ := h
  refine ⟨_, if_pos (by omega), hcap, congrArg (· + numElem) hhead, ?_, ⟨?_, ?_⟩, fun k v hv => ?_⟩
  · rw [List.length_drop, ← hsize]
  · exact (Nat.sub_le _ _).trans hfits.size_le
  · exact hfits.head_pos.trans (Nat.le_add_right _ _)
  · rw [List.getElem?_drop] at hv
    have hval := hget _ v hv
    rw [← Nat.add_assoc] at hval
    exact hval

theorem Holds.popBack (h : Holds capacity q d) (hne : d.elems ≠ []) :
    ∃ q', q.popBack = some q' ∧ Holds capacity q' ⟨d.first, d.elems.dropLast⟩ := by
  obtain ⟨hcap, hhead, hsize, hfits, hget⟩ := h
  have hpos := List.length_pos_iff.mpr hne
  have hempty : ¬q.empty = true := by
    unfold empty
    rw [decide_eq_true_eq]
    omega
  refine ⟨_, if_neg hempty, hcap, hhead, ?_, ⟨?_, hfits.head_pos⟩, fun k v hv => hget k v ?_⟩
  · rw [List.length_dropLast, ← hsize]
  · exact (Nat.sub_le _ _).trans hfits.size_le
  · rw [List.getElem?_dropLast] at hv
    split at hv
    · exact hv
    · cases hv

/-- **Every operation** does the same to the queue and to the deque, or fails in both. -/
theorem Holds.step (hpos : 0 < capacity) (h : Holds capacity q d) (op : Op α) :
    (∃ q' d', q.step op = .ok q' ∧ d.step capacity op = .ok d' ∧ Holds capacity q' d') ∨
      ∃ e, q.step op = .error e ∧ d.step capacity op = .error e := by
  have hsize := h.size
  cases op with
  | pushBack val => exact .inl ⟨_, _, rfl, rfl, h.pushBack hpos val⟩
  | popFront numElem =>
    by_cases hnum : numElem.toNat ≤ d.elems.length
    · obtain ⟨q', hq', h'⟩ := h.popFrontBy hnum
      exact .inl ⟨q', _, orFail_eq_ok.mpr hq', if_pos hnum, h'⟩
    · have hnone : q.popFrontBy numElem.toNat = none := if_neg (by omega)
      exact .inr ⟨.popFront, congrArg (orFail Fault.popFront) hnone, if_neg hnum⟩
  | popBack =>
    by_cases hne : d.elems = []
    · have hnone : q.popBack = none := by
        rw [hne, List.length_nil] at hsize
        exact if_pos (decide_eq_true hsize)
      exact .inr ⟨.popBack, congrArg (orFail Fault.popBack) hnone, if_pos hne⟩
    · obtain ⟨q', hq', h'⟩ := h.popBack hne
      exact .inl ⟨q', _, orFail_eq_ok.mpr hq', if_neg hne, h'⟩
  | flush =>
    exact .inl ⟨_, _, rfl, rfl, h.capacity, rfl, rfl, ⟨Nat.zero_le _, le_rfl⟩,
      fun k v hv => by cases hv⟩
  | advanceTail => exact .inl ⟨_, _, rfl, rfl, h.advanceTail hpos⟩
  | advanceTailBy len => exact .inl ⟨_, _, rfl, rfl, h.advanceTailBy hpos len.toNat⟩

end CircularQueue

/-! ## Whole runs -/

namespace CircularQueue64

open CircularQueue

variable {α : Type} {capacity : ℕ} {q : CircularQueue64 α} {d : BoundedDeque α}

/-- The operation leaves the index behind the last element below `2 ^ 64`. -/
def IndexFits (capacity : ℕ) (d : BoundedDeque α) (op : Op α) : Prop :=
  Ends (fun d' => d'.first + d'.elems.length < 2 ^ 64) (fun _ => True) (d.step capacity op)

theorem holds_run (hpos : 0 < capacity) (h : Holds capacity q.unbounded d)
    (hend : d.first + d.elems.length < 2 ^ 64) {ops : List (Op α)}
    (hops : Admitted (IndexFits capacity) (BoundedDeque.step capacity) d ops) :
    (∃ q' d', run step q ops = .ok q' ∧ run (BoundedDeque.step capacity) d ops = .ok d' ∧
        Holds capacity q'.unbounded d' ∧ d'.first + d'.elems.length < 2 ^ 64) ∨
      ∃ e, run step q ops = .error e ∧ run (BoundedDeque.step capacity) d ops = .error e := by
  induction ops generalizing q d with
  | nil => exact .inl ⟨q, d, rfl, rfl, h, hend⟩
  | cons op ops ih =>
    have hfits := hops.1
    rcases h.step hpos op with ⟨q', d', hq, hd, h'⟩ | ⟨e, hq, hd⟩
    · rw [IndexFits, hd] at hfits
      have hmap := step_unbounded h.fits op fun r hr => by
        rw [hq, Except.ok.injEq] at hr
        rw [← hr, h'.head, h'.size]
        exact hfits
      rw [hq] at hmap
      cases hs : q.step op with
      | error e => rw [hs] at hmap; cases hmap
      | ok r =>
        rw [hs] at hmap
        have hr : r.unbounded = q' := Except.ok.inj hmap
        rw [run_cons_ok ops hs, run_cons_ok ops hd]
        exact ih (hr ▸ h') hfits (hops.2 d' hd)
    · have hmap := step_unbounded h.fits op fun r hr => by rw [hq] at hr; cases hr
      rw [hq] at hmap
      cases hs : q.step op with
      | ok r => rw [hs] at hmap; cases hmap
      | error e' =>
        rw [hs] at hmap
        have he : e' = e := Except.error.inj hmap
        exact .inr ⟨e, run_cons_error ops (he ▸ hs), run_cons_error ops hd⟩

/-- What the queue shows of the deque: the elements at the indices from `head()` to `tail()`, which
are the valid ones and lie in slots of their own. -/
structure Shows (capacity : ℕ) (q : CircularQueue64 α) (d : BoundedDeque α) : Prop where
  size : q.size.toNat = d.elems.length ∧ q.size.toNat ≤ capacity
  ends : q.head.toNat = d.first ∧ q.tail.toNat + 1 = d.first + d.elems.length
  get : ∀ k v, d.elems[k]? = some (some v) → q.get (q.head + BitVec.ofNat 64 k) = v
  valid : ∀ i, q.IsValidIdx i ↔ ∃ k < d.elems.length, i.toNat = d.first + k
  slots : ∀ i j, q.IsValidIdx i → q.IsValidIdx j → i % q.capacity = j % q.capacity → i = j

theorem shows_of_holds (h : Holds capacity q.unbounded d)
    (hend : d.first + d.elems.length < 2 ^ 64) : Shows capacity q d := by
  have hhead : q.head.toNat = d.first := h.head
  have hsize : q.size.toNat = d.elems.length := h.size
  have hpos : 1 ≤ q.head.toNat := h.fits.head_pos
  have hbound : q.unbounded.head + q.unbounded.size < 2 ^ 64 := by rwa [h.head, h.size]
  have hsum : (q.head + q.size).toNat = d.first + d.elems.length := by bv_omega
  have hvalid : ∀ i, q.IsValidIdx i ↔ q.unbounded.IsValidIdx i.toNat := fun i => by
    rw [IsValidIdx, CircularQueue.IsValidIdx, BitVec.le_def, BitVec.lt_def, hsum, h.head, h.size,
      hhead]
  refine ⟨⟨hsize, hsize ▸ h.length_le⟩, ⟨hhead, ?_⟩, fun k v hv => ?_, fun i => ?_,
    fun i j hi hj hij => ?_⟩
  · rw [tail_unbounded h.fits hbound]
    exact (endIdx_eq h.fits).trans (congrArg₂ _ h.head h.size)
  · have hk : k < d.elems.length := (List.getElem?_eq_some_iff.mp hv).1
    have hidx : (q.head + BitVec.ofNat 64 k).toNat = q.head.toNat + k := by
      rw [BitVec.toNat_add, BitVec.toNat_ofNat, Nat.mod_eq_of_lt (by omega : k < 2 ^ 64)]
      exact Nat.mod_eq_of_lt (by omega)
    rw [get_unbounded, hidx]
    exact h.get k v hv
  · rw [hvalid, CircularQueue.IsValidIdx, h.head, h.size]
    constructor
    · rintro ⟨hlow, hhigh⟩
      exact ⟨i.toNat - d.first, by omega, by omega⟩
    · rintro ⟨k, hk, hi⟩
      exact ⟨by omega, by omega⟩
  · refine BitVec.eq_of_toNat_eq (slot_injOn h.fits ((hvalid i).mp hi) ((hvalid j).mp hj) ?_)
    have hmod := congrArg BitVec.toNat hij
    rwa [BitVec.toNat_umod, BitVec.toNat_umod] at hmod

/-- Both fail at the same assertion, or the queue shows the deque. -/
def SameOutcome (capacity : ℕ) :
    Except Fault (CircularQueue64 α) → Except Fault (BoundedDeque α) → Prop
  | .ok q, .ok d => Shows capacity q d
  | .error e, .error e' => e = e'
  | _, _ => False

theorem holds_new {capacity : BitVec 64} (blank : α) :
    Holds capacity.toNat (new capacity blank).unbounded ⟨1, []⟩ :=
  ⟨rfl, rfl, rfl, ⟨Nat.zero_le _, le_refl 1⟩, fun k v hv => by cases hv⟩

/-- **A circular queue is a bounded deque**, over any sequence of operations that keep the indices
of the deque below `2 ^ 64`. -/
theorem run_refines_deque (capacity : BitVec 64) (hpos : 0 < capacity.toNat) (blank : α)
    {ops : List (Op α)} (hops : Admitted (IndexFits capacity.toNat)
      (BoundedDeque.step capacity.toNat) ⟨1, []⟩ ops) :
    SameOutcome capacity.toNat (run step (new capacity blank) ops)
      (run (BoundedDeque.step capacity.toNat) ⟨1, []⟩ ops) := by
  rcases holds_run hpos (holds_new blank) (by simp) hops with
    ⟨q, d, hq, hd, h, hend⟩ | ⟨e, hq, hd⟩
  · rw [hq, hd]
    exact shows_of_holds h hend
  · rw [hq, hd]
    rfl

instance (capacity : ℕ) (d : BoundedDeque α) (op : Op α) : Decidable (IndexFits capacity d op) :=
  inferInstanceAs (Decidable (Ends _ _ _))

theorem run_refines_deque_overfull :
    SameOutcome 2
      (run step (new 2 0)
        [.pushBack 1, .pushBack 2, .pushBack 3, .popBack, .advanceTailBy 2, .pushBack 4])
      (run (BoundedDeque.step 2) ⟨1, []⟩
        [.pushBack 1, .pushBack 2, .pushBack 3, .popBack, .advanceTailBy 2, .pushBack 4]) :=
  run_refines_deque 2 (by decide) 0 (by decide +kernel)

/-- **One call can use up the indices**: a queue of capacity 3 whose tail is advanced by `2 ^ 64 - 1`
holds three elements, as the deque does, but the index behind the last of them is 0 and no index is
valid. -/
theorem advance_tail_overflows :
    ∃ (q : CircularQueue64 ℕ) (d : BoundedDeque ℕ),
      run step (new 3 0) [.advanceTailBy (.allOnes 64)] = .ok q ∧
      run (BoundedDeque.step 3) ⟨1, []⟩ [.advanceTailBy (.allOnes 64)] = .ok d ∧
      q.size = 3 ∧ d.elems.length = 3 ∧ ∀ i, ¬ q.IsValidIdx i := by
  have hnew : Holds (3 : BitVec 64).toNat (new 3 0).unbounded ⟨1, []⟩ := holds_new 0
  have hdeque := hnew.advanceTailBy (by decide) (2 ^ 64 - 1)
  refine ⟨_, _, run_cons_ok [] rfl, run_cons_ok [] rfl, rfl, ?_, fun i hi => ?_⟩
  · refine hdeque.size.symm.trans ?_
    rw [advanceTailBy_eq (by decide)]
    rfl
  · exact absurd hi.2 (BitVec.not_lt_zero)

end CircularQueue64
