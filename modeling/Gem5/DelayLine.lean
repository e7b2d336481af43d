/-
# A time buffer as a delay line

The abstract delay line has a value for every time; now moves on by one with every `advance`, and
the index of a wire is relative to it.  The functions of `cpu/timebuf.hh` compute the slots with
`int` and `unsigned` values of 32 bits, and a sum of two of them can go beyond the largest `int`.
Where `past + future + 1` and `past + 2 * future` stay below it, a `TimeBuffer` is the delay line
over any sequence of writes and advances; otherwise the advances alone lead outside the ring.
-/
import Gem5.TimeBuffer

namespace Gem5

open Runs

namespace TimeBuffer

variable {T : Type}

/-! ## Slots in 32 bits -/

/-- The conversion to an `int`. -/
def toInt (n : ℤ) : ℤ := n.bmod (2 ^ 32)

inductive Fault
  /-- `past + future + 1` is not an `int` -/
  | overflow
  /-- `assert(idx >= -past && idx <= future)` -/
  | invalid
  /-- a slot outside the ring -/
  | outOfBounds
  deriving DecidableEq, Repr

/-- `calculateVectorIndex(idx)` on 32-bit values. -/
def vectorIndex (b : TimeBuffer T) (idx : ℤ) : Except Fault ℕ := do
  require .invalid (-(b.past : ℤ) ≤ idx ∧ idx ≤ b.future)
  let sum := toInt (idx + b.base)
  let slot :=
    if sum ≥ b.size then toInt (sum - b.size) else if sum < 0 then toInt (sum + b.size) else sum
  require .outOfBounds (0 ≤ slot ∧ slot < b.size)
  return slot.toNat

/-- `ptr` of `advance()` on 32-bit values. -/
def exposedSlot (b : TimeBuffer T) : Except Fault ℕ := do
  let sum := toInt (b.nextBase + b.future)
  let slot := if sum ≥ b.size then toInt (sum - b.size) else sum
  require .outOfBounds (0 ≤ slot ∧ slot < b.size)
  return slot.toNat

/-- `TimeBuffer(p, f)` -/
def create [Inhabited T] (p f : ℕ) : Except Fault (TimeBuffer T) := do
  require .overflow (p + f + 1 < 2 ^ 31)
  return new p f

/-- A write through a wire at an index, or an `advance()`. -/
inductive Op (T : Type)
  | write (idx : ℤ) (f : T → T)
  | advance

def step [Inhabited T] (b : TimeBuffer T) : Op T → Except Fault (TimeBuffer T)
  | .write idx f => do
      let slot ← b.vectorIndex idx
      return {
        b with
        slots := b.slots.modify slot f
        length_slots := (List.length_modify ..).trans b.length_slots }
  | .advance => do
      let slot ← b.exposedSlot
      return {
        b with
        base := b.nextBase
        slots := b.slots.set slot default
        length_slots := (List.length_set ..).trans b.length_slots
        base_lt := b.nextBase_lt }

/-- The value at an index. -/
def read (b : TimeBuffer T) (idx : ℤ) : Except Fault T := do
  let slot ← b.vectorIndex idx
  orFail .outOfBounds b.slots[slot]?

/-- The sums of the buffer are `int`s. -/
def Small (past future : ℕ) : Prop := past + future + 1 < 2 ^ 31 ∧ past + 2 * future < 2 ^ 31

theorem toInt_of_lt {n : ℤ} (hlow : -2 ^ 31 ≤ n) (hhigh : n < 2 ^ 31) : toInt n = n := by
  unfold toInt
  exact Int.bmod_eq_of_le (by omega) (by omega)

/-- In a small buffer the slot is the one of unbounded arithmetic. -/
theorem vectorIndex_eq {b : TimeBuffer T} (hb : Small b.past b.future) {i : ℤ} (hi : b.Valid i) :
    ∃ k, b.vectorIndex i = .ok k ∧ b.calculateVectorIndex i = some k := by
  obtain ⟨hsize, hfar⟩ := hb
  obtain ⟨hlow, hhigh⟩ := hi
  have hbase := b.base_lt
  have hsum : toInt (i + b.base) = i + b.base := toInt_of_lt (by omega) (by omega)
  refine ⟨_, bind_eq_ok.mpr ⟨(), require_ok (decide_eq_true ⟨hlow, hhigh⟩), ?_⟩,
    if_pos ⟨hlow, hhigh⟩⟩
  rw [hsum]
  unfold size
  dsimp only
  split_ifs with hge hneg
  · rw [toInt_of_lt (by omega) (by omega)]
    exact bind_eq_ok.mpr ⟨(), require_ok (decide_eq_true ⟨by omega, by omega⟩), rfl⟩
  · rw [toInt_of_lt (by omega) (by omega)]
    exact bind_eq_ok.mpr ⟨(), require_ok (decide_eq_true ⟨by omega, by omega⟩), rfl⟩
  · exact bind_eq_ok.mpr ⟨(), require_ok (decide_eq_true ⟨by omega, by omega⟩), rfl⟩

theorem vectorIndex_of_invalid {b : TimeBuffer T} {i : ℤ} (hi : ¬b.Valid i) :
    b.vectorIndex i = .error .invalid :=
  bind_eq_error.mpr (.inl (require_eq_error.mpr ⟨decide_eq_false hi, rfl⟩))

theorem exposedSlot_of_lt {b : TimeBuffer T} (hsize : b.size < 2 ^ 31)
    (hfar : b.nextBase + b.future < 2 ^ 31) : b.exposedSlot = .ok b.clearedSlot := by
  have hbase : b.nextBase < b.size := b.nextBase_lt
  have hfuture : b.future < b.size := by
    unfold size
    omega
  have hsum : toInt (b.nextBase + b.future) = b.nextBase + b.future :=
    toInt_of_lt (by omega) (by omega)
  unfold exposedSlot clearedSlot
  rw [hsum]
  dsimp only
  split_ifs with hge hge'
  · rw [toInt_of_lt (by omega) (by omega), require_ok (decide_eq_true ⟨by omega, by omega⟩)]
    exact congrArg Except.ok (by omega)
  · omega
  · omega
  · rw [require_ok (decide_eq_true ⟨by omega, by omega⟩)]
    exact congrArg Except.ok (by omega)

theorem exposedSlot_eq {b : TimeBuffer T} (hb : Small b.past b.future) :
    b.exposedSlot = .ok b.clearedSlot := by
  obtain ⟨hsize, hfar⟩ := hb
  have hbase := b.nextBase_lt
  exact exposedSlot_of_lt hsize (by omega)

/-- A small buffer does what the unbounded one does. -/
theorem step_write [Inhabited T] {b : TimeBuffer T} (hb : Small b.past b.future) {i : ℤ}
    (hi : b.Valid i) (f : T → T) : b.step (.write i f) = .ok (b.modify i f) := by
  obtain ⟨k, hk, hk'⟩ := vectorIndex_eq hb hi
  refine bind_eq_ok.mpr ⟨k, hk, congrArg Except.ok ?_⟩
  unfold modify
  simp only [hk']

theorem step_advance [Inhabited T] {b : TimeBuffer T} (hb : Small b.past b.future) :
    b.step .advance = .ok b.advance :=
  bind_eq_ok.mpr ⟨_, exposedSlot_eq hb, rfl⟩

theorem read_eq {b : TimeBuffer T} (hb : Small b.past b.future) {i : ℤ} (hi : b.Valid i) {v : T}
    (hv : b.access i = some v) : b.read i = .ok v := by
  obtain ⟨k, hk, hk'⟩ := vectorIndex_eq hb hi
  refine bind_eq_ok.mpr ⟨k, hk, orFail_eq_ok.mpr ?_⟩
  rw [← access_eq hk']
  exact hv

end TimeBuffer

/-! ## The delay line -/

/-- A value for every time, and now. -/
structure DelayLine (T : Type) where
  now : ℤ
  value : ℤ → T

namespace DelayLine

variable {T : Type}

/-- A write reaches from `past` before now to `future` behind it. -/
def step (past future : ℕ) (d : DelayLine T) :
    TimeBuffer.Op T → Except TimeBuffer.Fault (DelayLine T)
  | .write idx f =>
      if -(past : ℤ) ≤ idx ∧ idx ≤ future then
        .ok { d with value := Function.update d.value (d.now + idx) (f (d.value (d.now + idx))) }
      else .error .invalid
  | .advance => .ok { d with now := d.now + 1 }

end DelayLine

/-! ## Refinement -/

namespace TimeBuffer

variable {T : Type} [Inhabited T] {past future : ℕ} {b : TimeBuffer T} {d : DelayLine T}

/-- The buffer holds what the line has around now, and nothing was written behind. -/
structure Delays (past future : ℕ) (b : TimeBuffer T) (d : DelayLine T) : Prop where
  past_eq : b.past = past
  future_eq : b.future = future
  access : ∀ i, b.Valid i → b.access i = some (d.value (d.now + i))
  ahead : ∀ t, d.now + future < t → d.value t = default

theorem Delays.write (h : Delays past future b d) {i : ℤ} (hi : b.Valid i) (f : T → T) :
    Delays past future (b.modify i f)
      { d with value := Function.update d.value (d.now + i) (f (d.value (d.now + i))) } := by
  obtain ⟨hpast, hfuture, haccess, hahead⟩ := h
  refine ⟨by rw [past_modify, hpast], by rw [future_modify, hfuture], fun j hj => ?_,
    fun t ht => ?_⟩
  · have hj' : b.Valid j := by
      unfold Valid at hj ⊢
      rwa [past_modify, future_modify] at hj
    rw [access_modify hj' hi, haccess j hj']
    dsimp only
    split_ifs with heq
    · rw [heq, Function.update_self]
      rfl
    · rw [Function.update_of_ne (by omega)]
  · have hne : t ≠ d.now + i := by
      have := hi.2
      dsimp only at ht
      omega
    dsimp only
    rw [Function.update_of_ne hne]
    exact hahead t ht

theorem Delays.advance (h : Delays past future b d) :
    Delays past future b.advance { d with now := d.now + 1 } := by
  obtain ⟨hpast, hfuture, haccess, hahead⟩ := h
  refine ⟨hpast, hfuture, fun i hi => ?_, fun t ht => hahead t (by dsimp only at ht; omega)⟩
  have hi' : b.Valid i := hi
  rw [access_advance hi']
  dsimp only
  split_ifs with hlast
  · rw [hahead _ (by omega)]
  · have hnext : b.Valid (i + 1) := by
      obtain ⟨hlow, hhigh⟩ := hi'
      unfold Valid
      omega
    rw [haccess _ hnext]
    congr 2
    omega

/-- **Every operation** does the same to the buffer and to the line, or fails in both. -/
theorem Delays.step (hsmall : Small past future) (h : Delays past future b d) (op : Op T) :
    (∃ b' d', b.step op = .ok b' ∧ d.step past future op = .ok d' ∧ Delays past future b' d') ∨
      ∃ e, b.step op = .error e ∧ d.step past future op = .error e := by
  have hb : Small b.past b.future := by
    rw [h.past_eq, h.future_eq]
    exact hsmall
  cases op with
  | write i f =>
    by_cases hi : b.Valid i
    · have hi' : -(past : ℤ) ≤ i ∧ i ≤ future := by
        rw [← h.past_eq, ← h.future_eq]
        exact hi
      exact .inl ⟨_, _, step_write hb hi f, if_pos hi', h.write hi f⟩
    · have hi' : ¬(-(past : ℤ) ≤ i ∧ i ≤ future) := by
        rw [← h.past_eq, ← h.future_eq]
        exact hi
      exact .inr ⟨.invalid, bind_eq_error.mpr (.inl (vectorIndex_of_invalid hi)), if_neg hi'⟩
  | advance => exact .inl ⟨_, _, step_advance hb, rfl, h.advance⟩

theorem Delays.run (hsmall : Small past future) (h : Delays past future b d) (ops : List (Op T)) :
    (∃ b' d', Runs.run TimeBuffer.step b ops = .ok b' ∧
        Runs.run (DelayLine.step past future) d ops = .ok d' ∧ Delays past future b' d') ∨
      ∃ e, Runs.run TimeBuffer.step b ops = .error e ∧
        Runs.run (DelayLine.step past future) d ops = .error e := by
  induction ops generalizing b d with
  | nil => exact .inl ⟨b, d, rfl, rfl, h⟩
  | cons op ops ih =>
    rcases h.step hsmall op with ⟨b', d', hb, hd, h'⟩ | ⟨e, hb, hd⟩
    · rw [run_cons_ok ops hb, run_cons_ok ops hd]
      exact ih h'
    · exact .inr ⟨e, run_cons_error ops hb, run_cons_error ops hd⟩

theorem delays_new (past future : ℕ) :
    Delays past future (new past future : TimeBuffer T) ⟨0, fun _ => default⟩ := by
  refine ⟨rfl, rfl, fun i hi => ?_, fun _ _ => rfl⟩
  obtain ⟨k, hk, hlt, -⟩ := calculateVectorIndex_of_valid hi
  rw [access_eq hk]
  exact List.getElem?_replicate_of_lt hlt

/-- Both fail at the same assertion, or every index reads the value of its time, the slots of
different indices are different, and nothing is behind the last index. -/
def SameOutcome (past future : ℕ) :
    Except Fault (TimeBuffer T) → Except Fault (DelayLine T) → Prop
  | .ok b, .ok d =>
      (∀ i : ℤ, -(past : ℤ) ≤ i → i ≤ future → b.read i = .ok (d.value (d.now + i))) ∧
      (∀ i j : ℤ, ∀ k, b.vectorIndex i = .ok k → b.vectorIndex j = .ok k → i = j) ∧
      ∀ t, d.now + future < t → d.value t = default
  | .error e, .error e' => e = e'
  | _, _ => False

/-- **A time buffer is a delay line**, over any sequence of writes and advances. -/
theorem run_is_delay_line (past future : ℕ) (hsmall : Small past future) (ops : List (Op T)) :
    SameOutcome past future (create past future >>= (Runs.run TimeBuffer.step · ops))
      (Runs.run (DelayLine.step past future) ⟨0, fun _ => default⟩ ops) := by
  have hcreate : create past future = .ok (new past future : TimeBuffer T) :=
    bind_eq_ok.mpr ⟨(), require_ok (decide_eq_true hsmall.1), rfl⟩
  rw [hcreate]
  show SameOutcome past future (Runs.run TimeBuffer.step (new past future) ops) _
  rcases (delays_new past future).run hsmall ops with ⟨b, d, hb, hd, h⟩ | ⟨e, hb, hd⟩
  · rw [hb, hd]
    have hsmall' : Small b.past b.future := by
      rw [h.past_eq, h.future_eq]
      exact hsmall
    refine ⟨fun i hlow hhigh => ?_, fun i j k hi hj => ?_, h.ahead⟩
    · have hvalid : b.Valid i := by
        unfold Valid
        rw [h.past_eq, h.future_eq]
        exact ⟨hlow, hhigh⟩
      exact read_eq hsmall' hvalid (h.access i hvalid)
    · have hindex : ∀ i, b.vectorIndex i = .ok k →
          b.Valid i ∧ b.calculateVectorIndex i = some k := by
        intro i hi
        have hvalid : b.Valid i := by
          by_contra hinvalid
          rw [vectorIndex_of_invalid hinvalid] at hi
          cases hi
        obtain ⟨k', hk', hcalc⟩ := vectorIndex_eq hsmall' hvalid
        obtain rfl := Except.ok.inj (hk'.symm.trans hi)
        exact ⟨hvalid, hcalc⟩
      exact index_unique (hindex i hi).1 (hindex j hj).1 (hindex i hi).2 (hindex j hj).2
  · rw [hb, hd]
    rfl

theorem run_is_delay_line_pipeline :
    SameOutcome 2 3
      (create 2 3 >>= (Runs.run TimeBuffer.step · [.write 3 fun _ => 7, .advance, .advance]))
      (Runs.run (DelayLine.step 2 3) ⟨0, fun _ => (0 : ℕ)⟩
        [.write 3 fun _ => 7, .advance, .advance]) :=
  run_is_delay_line 2 3 (by unfold Small; decide) _

/-! ## Large buffers -/

/-- Below the largest `int` the advances go round the ring. -/
theorem run_advances {past future k : ℕ} (hsize : past + future + 1 < 2 ^ 31)
    (hk : k ≤ past + future) (hfar : k + future < 2 ^ 31) :
    ∃ b : TimeBuffer T, Runs.run TimeBuffer.step (new past future) (List.replicate k .advance) =
      .ok b ∧ b.past = past ∧ b.future = future ∧ b.base = k := by
  induction k with
  | zero => exact ⟨_, rfl, rfl, rfl, rfl⟩
  | succ k ih =>
    obtain ⟨b, hb, rfl, rfl, rfl⟩ := ih (by omega) (by omega)
    have hnext : b.nextBase = b.base + 1 := by
      unfold nextBase size
      rw [if_neg (by omega)]
    have hslot : b.exposedSlot = .ok b.clearedSlot :=
      exposedSlot_of_lt hsize (by rw [hnext]; exact hfar)
    refine ⟨b.advance, ?_, rfl, rfl, hnext⟩
    rw [List.replicate_succ', run_append_ok _ hb]
    exact run_cons_ok [] (bind_eq_ok.mpr ⟨_, hslot, rfl⟩)

/-- **In a large buffer** enough advances lead outside the ring. -/
theorem run_advances_error {past future : ℕ} (hsize : past + future + 1 < 2 ^ 31)
    (hfar : 2 ^ 31 ≤ past + 2 * future) :
    Runs.run TimeBuffer.step (new past future : TimeBuffer T)
      (List.replicate (2 ^ 31 - future) .advance) = .error .outOfBounds := by
  obtain ⟨k, hk⟩ : ∃ k, 2 ^ 31 - future = k + 1 := ⟨2 ^ 31 - future - 1, by omega⟩
  obtain ⟨b, hb, hpast, hfuture, hbase⟩ :=
    run_advances (T := T) hsize (k := k) (by omega) (by omega)
  have hnext : b.nextBase = k + 1 := by
    unfold nextBase size
    rw [if_neg (by omega), hbase]
  -- the sum is the least `int`
  have hsum : toInt (b.nextBase + b.future) = -2 ^ 31 := by
    rw [hnext, hfuture, show ((k + 1 : ℕ) : ℤ) + future = 2 ^ 31 by omega]
    rfl
  have hslot : b.exposedSlot = .error .outOfBounds := by
    unfold exposedSlot
    rw [hsum]
    unfold size
    dsimp only
    rw [if_neg (by omega)]
    exact bind_eq_error.mpr (.inl (require_eq_error.mpr ⟨decide_eq_false (by omega), rfl⟩))
  rw [hk, List.replicate_succ', run_append_ok _ hb]
  exact run_cons_error [] (bind_eq_error.mpr (.inl hslot))

/-- With `2 ^ 30` slots ahead of now, the advance number `2 ^ 30` does. -/
theorem advance_leaves_ring :
    (create 0 (2 ^ 30) >>= (Runs.run TimeBuffer.step · (List.replicate (2 ^ 30) .advance)) :
      Except Fault (TimeBuffer ℕ)) = .error .outOfBounds := by
  have hcreate : create 0 (2 ^ 30) = .ok (new 0 (2 ^ 30) : TimeBuffer ℕ) :=
    bind_eq_ok.mpr ⟨(), require_ok (by decide), rfl⟩
  have hlap : 2 ^ 31 - 2 ^ 30 = 2 ^ 30 := by norm_num
  have hrun : Runs.run TimeBuffer.step (new 0 (2 ^ 30) : TimeBuffer ℕ)
      (List.replicate (2 ^ 31 - 2 ^ 30) .advance) = .error .outOfBounds :=
    run_advances_error (by norm_num) (by norm_num)
  rw [hlap] at hrun
  exact bind_eq_error.mpr (.inr ⟨_, hcreate, hrun⟩)

end TimeBuffer

end Gem5
