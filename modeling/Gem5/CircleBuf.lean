/-
# Circular buffers

Embedding of `CircleBuf` and `Fifo` (`base/circlebuf.hh`).  The buffer counts the elements that were
taken out for ever, and finds its cells by the remainder; the count is a `size_t`, so the model is
exact until `2 ^ 64` elements were taken out of one buffer.  A write beyond the capacity overwrites
the head of the queue; the `Fifo` refuses it.  The operations are those of a list of which the last
`capacity` elements are kept (`Represents.write`, `Represents.read`).
-/
import Gem5.RingIndex
import Gem5.Runs

namespace RingIndex

variable {α : Type*}

/-! ## Appending in blocks -/

/-- The lap ends where a counter has gone through the rest of it. -/
theorem lap_end (a n : ℕ) (hn : 0 < n) : (a + (n - a % n)) % n = 0 := by
  have hdiv := Nat.div_add_mod a n
  have hmod := Nat.mod_lt a hn
  have hsum : a + (n - a % n) = n * (a / n + 1) := by
    rw [Nat.mul_add, Nat.mul_one]
    omega
  rw [hsum, Nat.mul_mod_right]

/-- A list that fits in front of the end of the ring is one block. -/
theorem pushAll_of_fits {ring ys : List α} {t : ℕ} (h : t + ys.length ≤ ring.length) :
    pushAll ring t ys = writeBlock ring t ys := by
  induction ys generalizing ring t with
  | nil => rfl
  | cons y ys ih =>
    rw [List.length_cons] at h
    rw [pushAll, writeBlock]
    rcases (show t + 1 ≤ ring.length by omega).lt_or_eq with hlt | heq
    · rw [Nat.mod_eq_of_lt hlt]
      exact ih (by rw [List.length_set]; omega)
    · have hnil : ys = [] := List.eq_nil_of_length_eq_zero (by omega)
      rw [hnil]
      rfl

theorem pushAll_append (ring ys zs : List α) (t : ℕ) (ht : t < ring.length) :
    pushAll ring t (ys ++ zs) =
      pushAll (pushAll ring t ys) ((t + ys.length) % ring.length) zs := by
  induction ys generalizing ring t with
  | nil =>
    rw [List.nil_append, List.length_nil, Nat.add_zero, Nat.mod_eq_of_lt ht]
    rfl
  | cons y ys ih =>
    have hpos : 0 < ring.length := by omega
    have hset : (ring.set t y).length = ring.length := List.length_set
    have hnext := ih (ring.set t y) ((t + 1) % ring.length)
      (by rw [hset]; exact Nat.mod_lt _ hpos)
    rw [hset, Nat.mod_add_mod] at hnext
    rw [List.cons_append, pushAll, pushAll, hnext, List.length_cons, Nat.add_assoc,
      Nat.add_comm 1]

/-- A list that reaches over the end of the ring is a block at the end and a block at the start. -/
theorem pushAll_wrap {ring ys : List α} {t : ℕ} (ht : t < ring.length)
    (hwrap : ring.length - t ≤ ys.length) (hlen : ys.length ≤ ring.length) :
    pushAll ring t ys =
      writeBlock (writeBlock ring t (ys.take (ring.length - t))) 0
        (ys.drop (ring.length - t)) := by
  have hfirst : (ys.take (ring.length - t)).length = ring.length - t := by
    rw [List.length_take]
    omega
  have hend : (t + (ring.length - t)) % ring.length = 0 := by
    rw [Nat.add_sub_cancel' ht.le, Nat.mod_self]
  have hblock : pushAll ring t (ys.take (ring.length - t)) =
      writeBlock ring t (ys.take (ring.length - t)) := pushAll_of_fits (by omega)
  calc pushAll ring t ys
      = pushAll ring t (ys.take (ring.length - t) ++ ys.drop (ring.length - t)) := by
        rw [List.take_append_drop]
    _ = pushAll (writeBlock ring t (ys.take (ring.length - t))) 0
          (ys.drop (ring.length - t)) := by
        rw [pushAll_append _ _ _ _ ht, hfirst, hend, hblock]
    _ = _ := by
        refine pushAll_of_fits ?_
        rw [length_writeBlock, List.length_drop]
        omega

end RingIndex

namespace Gem5

open Runs RingIndex

/-! ## Operations -/

structure CircleBuf (α : Type) where
  buffer : List α
  start : ℕ
  used : ℕ

/-- The panics of the buffers. -/
inductive CircleFault
  | readPastEnd
  | overfill
  deriving DecidableEq, Repr

namespace CircleBuf

variable {α : Type}

def size (b : CircleBuf α) : ℕ := b.used

def capacity (b : CircleBuf α) : ℕ := b.buffer.length

def new (size : ℕ) (blank : α) : CircleBuf α := ⟨List.replicate size blank, 0, 0⟩

def flush (b : CircleBuf α) : CircleBuf α := { b with start := 0, used := 0 }

def peek (b : CircleBuf α) (offset len : ℕ) : Except CircleFault (List α) := do
  require .readPastEnd (offset + len ≤ b.used)
  if len = 0 then return []
  else
    let next := (b.start + offset) % b.capacity
    let toEnd := b.capacity - next
    if toEnd < len then
      return (b.buffer.drop next).take toEnd ++ (b.buffer.drop 0).take (len - toEnd)
    else return (b.buffer.drop next).take len

def read (b : CircleBuf α) (len : ℕ) : Except CircleFault (List α × CircleBuf α) := do
  let out ← b.peek 0 len
  return (out, { b with used := b.used - len, start := b.start + len })

/-- The part of `write` for data that is not longer than the buffer. -/
def writeFitting (b : CircleBuf α) (data : List α) : CircleBuf α :=
  let overflow := b.used + data.length - b.capacity
  let next := (b.start + b.used) % b.capacity
  let toEnd := b.capacity - next
  { buffer :=
      if toEnd < data.length then
        writeBlock (writeBlock b.buffer next (data.take toEnd)) 0 (data.drop toEnd)
      else writeBlock b.buffer next data
    used := b.used + data.length - overflow
    start := b.start + overflow }

def write (b : CircleBuf α) (data : List α) : CircleBuf α :=
  if data.length = 0 then b
  else if data.length > b.capacity then
    b.flush.writeFitting (data.drop (data.length - b.capacity))
  else b.writeFitting data

/-- `Fifo::write` -/
def fifoWrite (b : CircleBuf α) (data : List α) : Except CircleFault (CircleBuf α) := do
  require .overfill (b.size + data.length ≤ b.capacity)
  return b.write data

/-! ## The buffer as a list -/

/-- The buffer holds the list: it is what is left of all that was written. -/
structure Represents (b : CircleBuf α) (ys : List α) : Prop where
  length : ys.length = b.used
  fits : b.used ≤ b.capacity
  holds : ∃ xs : List α, Holds b.buffer xs b.start ∧ xs.length = b.start + b.used ∧
    xs.drop b.start = ys

theorem represents_new (size : ℕ) (blank : α) : (new size blank).Represents [] where
  length := rfl
  fits := Nat.zero_le _
  holds := ⟨[], holds_of_le le_rfl, rfl, rfl⟩

theorem represents_flush (b : CircleBuf α) : b.flush.Represents [] where
  length := rfl
  fits := Nat.zero_le _
  holds := ⟨[], holds_of_le le_rfl, rfl, rfl⟩

/-- **Peeking** reads a part of the list. -/
theorem Represents.peek {b : CircleBuf α} {ys : List α} (h : b.Represents ys) {offset len : ℕ}
    (hlen : offset + len ≤ ys.length) : b.peek offset len = .ok ((ys.drop offset).take len) := by
  obtain ⟨xs, hholds, hxs, hys⟩ := h.holds
  have hlength := h.length
  have hfits := h.fits
  have hpart : (ys.drop offset).take len = (xs.drop (b.start + offset)).take len := by
    rw [← hys, List.drop_drop]
  have hheld : Holds b.buffer xs (b.start + offset) := hholds.mono (Nat.le_add_right _ _)
  have hroom : offset + len ≤ b.used := by omega
  refine bind_eq_ok.mpr ⟨(), require_ok (decide_eq_true hroom), ?_⟩
  by_cases hzero : len = 0
  · rw [if_pos hzero, hzero, List.take_zero]
    rfl
  rw [if_neg hzero, hpart]
  have hpos : 0 < b.capacity := by omega
  have hnext := Nat.mod_lt (b.start + offset) hpos
  have hblock : ∀ lo k, b.start + offset ≤ lo → lo % b.capacity + k ≤ b.capacity →
      lo + k ≤ xs.length →
      (b.buffer.drop (lo % b.capacity)).take k = (xs.drop lo).take k :=
    fun lo k hlo hend hk => (hheld.mono hlo).block hend hk
  dsimp only
  split
  · rename_i hwrap
    -- the first part ends with the ring, and the second one begins with it
    have hlap := lap_end (b.start + offset) b.capacity hpos
    generalize htoEnd : b.capacity - (b.start + offset) % b.capacity = toEnd at *
    have hfirst := hblock (b.start + offset) toEnd le_rfl (by omega) (by omega)
    have hsecond := hblock (b.start + offset + toEnd) (len - toEnd) (Nat.le_add_right _ _)
      (by omega) (by omega)
    rw [hlap] at hsecond
    have hsplit : (xs.drop (b.start + offset)).take len =
        (xs.drop (b.start + offset)).take toEnd ++
          (xs.drop (b.start + offset + toEnd)).take (len - toEnd) := by
      rw [← List.drop_drop (i := toEnd), ← List.take_add]
      congr 1
      omega
    rw [hfirst, hsecond, hsplit]
    rfl
  · exact congrArg Except.ok (hblock _ _ le_rfl (by omega) (by omega))

/-- **Reading** takes the first elements of the list. -/
theorem Represents.read {b : CircleBuf α} {ys : List α} (h : b.Represents ys) {len : ℕ}
    (hlen : len ≤ ys.length) :
    ∃ b', b.read len = .ok (ys.take len, b') ∧ b'.Represents (ys.drop len) ∧
      b'.capacity = b.capacity := by
  obtain ⟨xs, hholds, hxs, hys⟩ := h.holds
  have hlength := h.length
  have hfits := h.fits
  have hpeek : b.peek 0 len = .ok (ys.take len) := h.peek (by omega)
  refine ⟨_, bind_eq_ok.mpr ⟨_, hpeek, rfl⟩, ⟨?_, ?_, xs, ?_, ?_, ?_⟩, rfl⟩
  · rw [List.length_drop, hlength]
  · exact (Nat.sub_le _ _).trans hfits
  · exact hholds.mono (Nat.le_add_right _ _)
  · dsimp only
    omega
  · rw [← hys, List.drop_drop]

/-- Data that is not longer than the buffer is appended, and the head makes room for it. -/
theorem Represents.writeFitting {b : CircleBuf α} {ys : List α} (h : b.Represents ys)
    (data : List α) (hpos : 0 < data.length) (hlen : data.length ≤ b.capacity) :
    (b.writeFitting data).Represents
      ((ys ++ data).drop (ys.length + data.length - b.capacity)) ∧
      (b.writeFitting data).capacity = b.capacity := by
  obtain ⟨xs, hholds, hxs, hys⟩ := h.holds
  have hlength := h.length
  have hfits := h.fits
  have hnext : (b.start + b.used) % b.capacity < b.buffer.length :=
    Nat.mod_lt _ (hpos.trans_le hlen)
  -- the two copies append the data to the ring
  have hbuffer : (b.writeFitting data).buffer =
      pushAll b.buffer (xs.length % b.buffer.length) data := by
    simp only [CircleBuf.writeFitting, hxs]
    split
    · rename_i hwrap
      exact (pushAll_wrap hnext hwrap.le hlen).symm
    · rename_i hwrap
      exact (pushAll_of_fits (by change _ ≤ b.capacity; omega)).symm
  have hcapacity : (b.writeFitting data).capacity = b.capacity := by
    rw [capacity, hbuffer, length_pushAll]
    rfl
  have hused : (b.writeFitting data).used =
      b.used + data.length - (b.used + data.length - b.capacity) := rfl
  have hstart : (b.writeFitting data).start =
      b.start + (b.used + data.length - b.capacity) := rfl
  refine ⟨⟨?_, ?_, xs ++ data, ?_, ?_, ?_⟩, hcapacity⟩
  · rw [List.length_drop, List.length_append, hused]
    omega
  · rw [hcapacity, hused]
    omega
  · rw [hbuffer, hstart]
    refine (hholds.mono (Nat.le_add_right _ _)).pushAll ?_
    change _ ≤ _ + b.capacity
    omega
  · rw [List.length_append, hstart, hused]
    omega
  · rw [hstart, ← List.drop_drop, List.drop_append_of_le_length (by omega), hys, hlength]

/-- **Writing** appends the data and keeps the last elements that fit. -/
theorem Represents.write {b : CircleBuf α} {ys : List α} (h : b.Represents ys)
    (hpos : 0 < b.capacity) (data : List α) :
    (b.write data).Represents ((ys ++ data).drop (ys.length + data.length - b.capacity)) ∧
      (b.write data).capacity = b.capacity := by
  have hlength := h.length
  have hfits := h.fits
  rw [CircleBuf.write]
  split
  · rename_i hzero
    rw [List.eq_nil_of_length_eq_zero hzero, List.append_nil, List.length_nil, Nat.add_zero,
      Nat.sub_eq_zero_of_le (by omega), List.drop_zero]
    exact ⟨h, rfl⟩
  · split
    · rename_i hzero hlong
      have hkept : (data.drop (data.length - b.capacity)).length = b.capacity := by
        rw [List.length_drop]
        omega
      have hfull : b.flush.capacity = b.capacity := rfl
      have hwritten := (represents_flush b).writeFitting
        (data.drop (data.length - b.capacity)) (by omega) hkept.le
      have hlist : (ys ++ data).drop (ys.length + data.length - b.capacity) =
          data.drop (data.length - b.capacity) := by
        have hskip : ys.length + data.length - b.capacity =
            ys.length + (data.length - b.capacity) := by omega
        rw [hskip, ← List.drop_drop, List.drop_left]
      rw [List.length_nil, Nat.zero_add, hkept, hfull, Nat.sub_self, List.drop_zero,
        List.nil_append] at hwritten
      rw [hlist]
      exact hwritten
    · rename_i hzero hshort
      exact h.writeFitting data (by omega) (by omega)

/-- **A `Fifo` with room** for the data appends it. -/
theorem Represents.fifoWrite {b : CircleBuf α} {ys : List α} (h : b.Represents ys) {data : List α}
    (hroom : ys.length + data.length ≤ b.capacity) :
    ∃ b', b.fifoWrite data = .ok b' ∧ b'.Represents (ys ++ data) ∧ b'.capacity = b.capacity := by
  have hlength := h.length
  have hsize : b.size + data.length ≤ b.capacity := by
    rw [size]
    omega
  refine ⟨_, bind_eq_ok.mpr ⟨(), require_ok (decide_eq_true hsize), rfl⟩, ?_⟩
  rcases Nat.eq_zero_or_pos b.capacity with hzero | hpos
  · have hnil : data = [] := List.eq_nil_of_length_eq_zero (by omega)
    rw [hnil, List.append_nil]
    exact ⟨h, rfl⟩
  · have hwritten := h.write hpos data
    rw [Nat.sub_eq_zero_of_le hroom, List.drop_zero] at hwritten
    exact hwritten

end CircleBuf

end Gem5
