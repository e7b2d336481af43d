/-
# Memory-order violations are detected

A store that executes looks through the load queue from the index it recorded at
insertion (`lqIt`).  That this walk meets exactly the younger loads is an invariant
of the runs of the unit (`AgeOrdered`): the load queue is sorted by age, and a live
store's `lqIt` separates the loads older than the store from the younger ones,
across commits, squashes and the reuse of queue slots.

The overlap test of the source compares the first and last blocks of two accesses;
`blocksMeet_iff` relates it to the bytes of the accesses, for accesses that do not
wrap around the address space.
-/
import Gem5.LsqSteps

open Runs

namespace Gem5.Lsq

/-! ## Blocks -/

/-- A non-empty access that does not wrap around the address space. -/
structure NonWrapping (i : DynInst) : Prop where
  pos : 0 < i.effSize.toNat
  end_le : i.effAddr.toNat + i.effSize.toNat ≤ 2 ^ 64

/-- The bytes of an access. -/
def DynInst.bytes (i : DynInst) : Set ℕ :=
  Set.Ico i.effAddr.toNat (i.effAddr.toNat + i.effSize.toNat)

/-- Some byte of one access lies in the same block as some byte of the other. -/
def ShareBlock (shift : ℕ) (i i' : DynInst) : Prop :=
  ∃ a ∈ i.bytes, ∃ b ∈ i'.bytes, a / 2 ^ shift = b / 2 ^ shift

theorem toNat_firstBlock (i : DynInst) (shift : ℕ) :
    (i.firstBlock shift).toNat = i.effAddr.toNat / 2 ^ shift := by
  rw [DynInst.firstBlock, BitVec.toNat_ushiftRight, Nat.shiftRight_eq_div_pow]

variable {i : DynInst} {q c : InstSeqNum} {u u' : LSQUnit}

theorem toNat_lastBlock (h : NonWrapping i) (shift : ℕ) :
    (i.lastBlock shift).toNat = (i.effAddr.toNat + i.effSize.toNat - 1) / 2 ^ shift := by
  have hpos := h.pos
  have hend := h.end_le
  have hsize : i.effSize.toNat < 2 ^ 32 := i.effSize.isLt
  have hlast : (i.effAddr + i.effSize.setWidth 64 - 1).toNat =
      i.effAddr.toNat + i.effSize.toNat - 1 := by
    have hone : (1 : Addr).toNat = 1 := rfl
    rw [BitVec.toNat_sub, BitVec.toNat_add, BitVec.toNat_setWidth, hone,
      Nat.mod_eq_of_lt (by omega : i.effSize.toNat < 2 ^ 64)]
    omega
  rw [DynInst.lastBlock, BitVec.toNat_ushiftRight, hlast, Nat.shiftRight_eq_div_pow]

/-- Two runs of blocks meet when each begins before the other ends. -/
theorem shareBlock_of_le {shift : ℕ} {i' : DynInst} (hi : 0 < i.effSize.toNat)
    (hi' : 0 < i'.effSize.toNat) (hle : i.effAddr.toNat / 2 ^ shift ≤ i'.effAddr.toNat / 2 ^ shift)
    (hmeet : i'.effAddr.toNat / 2 ^ shift ≤ (i.effAddr.toNat + i.effSize.toNat - 1) / 2 ^ shift) :
    ShareBlock shift i i' := by
  have hblock : 0 < 2 ^ shift := Nat.two_pow_pos shift
  -- the first byte of `i'`, and the first byte of `i` in or after its block
  refine ⟨max i.effAddr.toNat (i'.effAddr.toNat / 2 ^ shift * 2 ^ shift), ⟨le_max_left _ _, ?_⟩,
    i'.effAddr.toNat, ⟨le_refl _, by omega⟩, ?_⟩
  · rw [max_lt_iff]
    refine ⟨by omega, ?_⟩
    have := (Nat.le_div_iff_mul_le hblock).mp hmeet
    omega
  · rcases hle.lt_or_eq with hlt | heq
    · have hmax : i.effAddr.toNat ≤ i'.effAddr.toNat / 2 ^ shift * 2 ^ shift :=
        ((Nat.div_lt_iff_lt_mul hblock).mp hlt).le
      rw [max_eq_right hmax, Nat.mul_div_cancel _ hblock]
    · have hmax : i'.effAddr.toNat / 2 ^ shift * 2 ^ shift ≤ i.effAddr.toNat := by
        rw [← heq]
        exact Nat.div_mul_le_self _ _
      rw [max_eq_left hmax, heq]

/-- **The overlap test is exact** on accesses that do not wrap around. -/
theorem blocksMeet_iff (shift : ℕ) {st ld : DynInst} (hst : NonWrapping st)
    (hld : NonWrapping ld) : blocksMeet shift st ld = true ↔ ShareBlock shift st ld := by
  unfold blocksMeet
  simp only [Bool.and_eq_true, decide_eq_true_eq, BitVec.le_def, toNat_firstBlock,
    toNat_lastBlock hst, toNat_lastBlock hld]
  constructor
  · rintro ⟨h1, h2⟩
    rcases le_total (st.effAddr.toNat / 2 ^ shift) (ld.effAddr.toNat / 2 ^ shift) with hle | hle
    · exact shareBlock_of_le hst.pos hld.pos hle h1
    · obtain ⟨a, ha, b, hb, heq⟩ := shareBlock_of_le hld.pos hst.pos hle h2
      exact ⟨b, hb, a, ha, heq.symm⟩
  · rintro ⟨a, ⟨ha1, ha2⟩, b, ⟨hb1, hb2⟩, heq⟩
    constructor
    · calc ld.effAddr.toNat / 2 ^ shift ≤ b / 2 ^ shift := Nat.div_le_div_right hb1
        _ = a / 2 ^ shift := heq.symm
        _ ≤ (st.effAddr.toNat + st.effSize.toNat - 1) / 2 ^ shift :=
          Nat.div_le_div_right (by omega)
    · calc st.effAddr.toNat / 2 ^ shift ≤ a / 2 ^ shift := Nat.div_le_div_right ha1
        _ = b / 2 ^ shift := heq
        _ ≤ (ld.effAddr.toNat + ld.effSize.toNat - 1) / 2 ^ shift :=
          Nat.div_le_div_right (by omega)

/-! ## Runs of the unit -/

/-- The unit together with the youngest sequence number committed so far. -/
structure Machine where
  unit : LSQUnit
  committed : InstSeqNum

/-- What the rest of the core does with the unit of one thread. -/
inductive Action where
  | insertLoad (q : InstSeqNum) (i : DynInst)
  | insertStore (q : InstSeqNum) (i : DynInst)
  | executeLoad (q : InstSeqNum) (acc : Access)
  | executeStore (q : InstSeqNum) (acc : Access)
  /-- any change of an instruction by another stage, its queue position apart -/
  | update (q : InstSeqNum) (i : DynInst)
  | commitLoads (youngest_inst : InstSeqNum)
  | commitStores (youngest_inst : InstSeqNum)
  | completeStore (store_idx : ℕ)
  | storePostSend
  | squash (squashed_num : InstSeqNum)
  | getMemDepViolator

/-- The instructions younger than a squash are marked in the reorder buffer. -/
def LSQUnit.markSquashed (u : LSQUnit) (squashed_num : InstSeqNum) : LSQUnit :=
  { u with insts := fun q =>
      if squashed_num < q then { u.insts q with squashed := true } else u.insts q }

/-- A change of an instruction that keeps its queue positions. -/
def DynInst.updated (old i : DynInst) : DynInst :=
  { i with
    isLoad := old.isLoad
    squashed := old.squashed || i.squashed
    sqIdx := old.sqIdx
    lqIdx := old.lqIdx
    sqIt := old.sqIt
    lqIt := old.lqIt }

/-- One step of the unit. -/
def Machine.step (m : Machine) : Action → Except Fail Machine
  | .insertLoad q i => do
      let u ← (m.unit.setInst q i).insertLoad q
      return { m with unit := u }
  | .insertStore q i => do
      let u ← (m.unit.setInst q i).insertStore q
      return { m with unit := u }
  | .executeLoad q acc => do
      let r ← m.unit.executeLoad q acc
      return { m with unit := r.2 }
  | .executeStore q acc => do
      let r ← m.unit.executeStore q acc
      return { m with unit := r.2 }
  | .update q i => .ok { m with unit := m.unit.setInst q ((m.unit.insts q).updated i) }
  | .commitLoads y => do
      let u ← m.unit.commitLoads y
      return { unit := u, committed := max m.committed y }
  | .commitStores y => do
      let u ← m.unit.commitStores y
      return { unit := u, committed := max m.committed y }
  | .completeStore store_idx => do
      let u ← m.unit.completeStore store_idx
      return { m with unit := u }
  | .storePostSend => do
      let u ← m.unit.storePostSend
      return { m with unit := u }
  | .squash n => do
      let u ← (m.unit.markSquashed n).squash n
      return { m with unit := u }
  | .getMemDepViolator => .ok { m with unit := m.unit.getMemDepViolator.2 }

/-- The instruction at a valid index of the load queue. -/
def LSQUnit.LoadAt (u : LSQUnit) (i : ℕ) (q : InstSeqNum) : Prop :=
  u.loadQueue.IsValidIdx i ∧ (u.loadQueue.get i).inst = some q

/-- The instruction at a valid index of the store queue. -/
def LSQUnit.StoreAt (u : LSQUnit) (j : ℕ) (s : InstSeqNum) : Prop :=
  u.storeQueue.IsValidIdx j ∧ (u.storeQueue.get j).inst = some s

theorem LSQUnit.LoadAt.unique {i : ℕ} {q' : InstSeqNum} (h : u.LoadAt i q) (h' : u.LoadAt i q') :
    q = q' :=
  Option.some.inj (h.2.symm.trans h'.2)

/-- A newly dispatched instruction is younger than everything in the queues. -/
def LSQUnit.Youngest (u : LSQUnit) (q : InstSeqNum) : Prop :=
  (∀ i q', u.LoadAt i q' → q' < q) ∧ ∀ j s, u.StoreAt j s → s < q

/-- What the other stages promise: dispatch is in program order, loads go to the load
queue and the other instructions to the store queue, and a store executes while it
is in the store queue and before it commits. -/
def Admissible (m : Machine) : Action → Prop
  | .insertLoad q i => i.isLoad = true ∧ m.unit.Youngest q
  | .insertStore q i => i.isLoad = false ∧ m.unit.Youngest q
  | .executeStore s _ => m.committed < s ∧ ∃ j, m.unit.StoreAt j s
  | _ => True

/-- The unit as constructed. -/
def Machine.init (lqEntries sqEntries depCheckShift : ℕ) (checkLoads : Bool) : Machine where
  unit := .new lqEntries sqEntries depCheckShift checkLoads
  committed := 0

/-! ## The invariant -/

/-- The loads and stores of the unit are separated by age.  A store that has not
been squashed knows where its younger loads begin. -/
structure AgeOrdered (u : LSQUnit) (committed : InstSeqNum) : Prop where
  lqFits : u.loadQueue.Fits
  sqFits : u.storeQueue.Fits
  loadInst : ∀ i, u.loadQueue.IsValidIdx i → ∃ q, u.LoadAt i q
  sorted : ∀ i i' q q', u.LoadAt i q → u.LoadAt i' q' → i < i' → q < q'
  isLoad : ∀ i q, u.LoadAt i q → (u.insts q).isLoad = true
  notLoad : ∀ j s, u.StoreAt j s → (u.insts s).isLoad = false
  lqIt_le : ∀ j s, u.StoreAt j s → (u.insts s).squashed = false →
    (u.insts s).lqIt ≤ u.loadQueue.head + u.loadQueue.size
  head_le : ∀ j s, u.StoreAt j s → (u.insts s).squashed = false → committed < s →
    u.loadQueue.head ≤ (u.insts s).lqIt
  separates : ∀ j s, u.StoreAt j s → (u.insts s).squashed = false →
    ∀ i q, u.LoadAt i q → (i < (u.insts s).lqIt ↔ q < s)

/-- Committing further weakens what is asked of the stores. -/
theorem AgeOrdered.mono {c' : InstSeqNum} (h : AgeOrdered u c) (hle : c ≤ c') :
    AgeOrdered u c' :=
  { h with head_le := fun j s hj hs hc => h.head_le j s hj hs (lt_of_le_of_lt hle hc) }

/-- A quiet change keeps the order. -/
theorem AgeOrdered.quiet (h : AgeOrdered u c) (hq : Quiet u u') :
    AgeOrdered u' c := by
  have hload : ∀ i q, u'.LoadAt i q ↔ u.LoadAt i q := by
    intro i q
    unfold LSQUnit.LoadAt CircularQueue.IsValidIdx
    rw [hq.lqHead, hq.lqSize, hq.lqInst]
  have hstore : ∀ j s, u'.StoreAt j s → u.StoreAt j s := by
    rintro j s ⟨hj, hs⟩
    obtain ⟨hj', he⟩ := hq.sqInst j hj
    exact ⟨hj', he ▸ hs⟩
  have halive : ∀ s, (u'.insts s).squashed = false → (u.insts s).squashed = false := by
    intro s hs
    by_contra hcon
    rw [hq.squashed s (by simpa using hcon)] at hs
    cases hs
  constructor
  · exact ⟨by rw [hq.lqSize, hq.lqCapacity]; exact h.lqFits.size_le,
      by rw [hq.lqHead]; exact h.lqFits.head_pos⟩
  · exact hq.sqFits
  · intro i hi
    obtain ⟨q, hq'⟩ := h.loadInst i (by
      unfold CircularQueue.IsValidIdx at hi ⊢
      rw [hq.lqHead, hq.lqSize] at hi
      exact hi)
    exact ⟨q, (hload i q).mpr hq'⟩
  · intro i i' q q' hi hi' hlt
    exact h.sorted i i' q q' ((hload i q).mp hi) ((hload i' q').mp hi') hlt
  · intro i q hi
    rw [hq.isLoad]
    exact h.isLoad i q ((hload i q).mp hi)
  · intro j s hj
    rw [hq.isLoad]
    exact h.notLoad j s (hstore j s hj)
  · intro j s hj hs
    rw [hq.lqIt, hq.lqHead, hq.lqSize]
    exact h.lqIt_le j s (hstore j s hj) (halive s hs)
  · intro j s hj hs hc
    rw [hq.lqIt, hq.lqHead]
    exact h.head_le j s (hstore j s hj) (halive s hs) hc
  · intro j s hj hs i q hi
    rw [hq.lqIt]
    exact h.separates j s (hstore j s hj) (halive s hs) i q ((hload i q).mp hi)

theorem ordered_init (lqEntries sqEntries shift : ℕ) (checkLoads : Bool) :
    AgeOrdered (LSQUnit.new lqEntries sqEntries shift checkLoads) 0 := by
  have hload : ∀ i, ¬ (LSQUnit.new lqEntries sqEntries shift checkLoads).loadQueue.IsValidIdx i := by
    rintro i ⟨h1, h2⟩
    exact absurd (lt_of_lt_of_le h2 h1) (lt_irrefl _)
  have hstore : ∀ j s, ¬ (LSQUnit.new lqEntries sqEntries shift checkLoads).StoreAt j s := by
    rintro j s ⟨⟨h1, h2⟩, -⟩
    exact absurd (lt_of_lt_of_le h2 h1) (lt_irrefl _)
  exact
    { lqFits := CircularQueue.fits_new _
      sqFits := CircularQueue.fits_new _
      loadInst := fun i hi => absurd hi (hload i)
      sorted := fun i _ _ _ hi => absurd hi.1 (hload i)
      isLoad := fun i _ hi => absurd hi.1 (hload i)
      notLoad := fun j s hj => absurd hj (hstore j s)
      lqIt_le := fun j s hj => absurd hj (hstore j s)
      head_le := fun j s hj => absurd hj (hstore j s)
      separates := fun j s hj => absurd hj (hstore j s) }

/-! ## Growing the queues -/

/-- The valid indices of a queue grown by one element. -/
theorem grown_valid {α : Type*} {q : CircularQueue α} (hq : q.Fits) (hfull : q.full = false)
    (x : α) : (q.advanceTail.set q.advanceTail.tail x).Fits ∧
      (∀ i, (q.advanceTail.set q.advanceTail.tail x).IsValidIdx i ↔
        q.IsValidIdx i ∨ i = q.head + q.size) ∧
      (∀ i, q.IsValidIdx i → (q.advanceTail.set q.advanceTail.tail x).get i = q.get i) ∧
      (q.advanceTail.set q.advanceTail.tail x).get (q.head + q.size) = x := by
  have hfits := CircularQueue.fits_advanceTail hq hfull
  have hpos := hq.head_pos
  have hadv := CircularQueue.advanceTail_of_not_full hfull
  have htail : q.advanceTail.tail = q.head + q.size := by
    rw [hadv]
    unfold CircularQueue.tail
    show q.head + (q.size + 1) - 1 = _
    omega
  have hvalid : ∀ i, q.advanceTail.IsValidIdx i ↔ q.IsValidIdx i ∨ i = q.head + q.size := by
    intro i
    rw [hadv]
    show q.head ≤ i ∧ i < q.head + (q.size + 1) ↔ (q.head ≤ i ∧ i < q.head + q.size) ∨ _
    omega
  refine ⟨CircularQueue.fits_set hfits _ _, hvalid, fun i hi => ?_, ?_⟩
  · rw [CircularQueue.get_set_of_ne hfits ((hvalid _).mpr (.inr htail)) ((hvalid i).mpr (.inl hi))
      (by rw [htail]; exact Nat.ne_of_lt hi.2), hadv]
    rfl
  · rw [← htail]
    exact CircularQueue.get_set_self _ _ _

section Insert

variable {u w : LSQUnit} {c q : InstSeqNum} (h : AgeOrdered u c) (hy : u.Youngest q)
  (hinsts : ∀ s, s ≠ q → w.insts s = u.insts s)
include h hy hinsts

/-- The load queue grows by a load younger than everything. -/
theorem AgeOrdered.grow_load {x : LSQEntry} (hx : x.inst = some q)
    (hfull : u.loadQueue.full = false)
    (hlq : w.loadQueue = u.loadQueue.advanceTail.set u.loadQueue.advanceTail.tail x)
    (hsq : w.storeQueue = u.storeQueue) (hkind : (w.insts q).isLoad = true) :
    AgeOrdered w c := by
  obtain ⟨hfits, hvalid, hold, hnew⟩ := grown_valid h.lqFits hfull x
  rw [← hlq] at hfits hvalid hold hnew
  have hhead : w.loadQueue.head = u.loadQueue.head := by
    rw [hlq, CircularQueue.advanceTail_of_not_full hfull]
    rfl
  have hsize : w.loadQueue.size = u.loadQueue.size + 1 := by
    rw [hlq, CircularQueue.advanceTail_of_not_full hfull]
    rfl
  have hload : ∀ i p, w.LoadAt i p →
      u.LoadAt i p ∨ (i = u.loadQueue.head + u.loadQueue.size ∧ p = q) := by
    rintro i p ⟨hi, hp⟩
    rcases (hvalid i).mp hi with hi' | rfl
    · exact .inl ⟨hi', by rw [← hold i hi']; exact hp⟩
    · rw [hnew, hx] at hp
      exact .inr ⟨rfl, (Option.some.inj hp).symm⟩
  have hstore : ∀ j s, w.StoreAt j s → u.StoreAt j s ∧ w.insts s = u.insts s := by
    intro j s hj
    unfold LSQUnit.StoreAt at hj
    rw [hsq] at hj
    exact ⟨hj, hinsts s (hy.2 j s hj).ne⟩
  constructor
  · exact hfits
  · exact hsq ▸ h.sqFits
  · intro i hi
    rcases (hvalid i).mp hi with hi' | rfl
    · obtain ⟨p, hp⟩ := h.loadInst i hi'
      exact ⟨p, hi, by rw [hold i hi']; exact hp.2⟩
    · exact ⟨q, hi, by rw [hnew, hx]⟩
  · intro i i' p p' hi hi' hlt
    rcases hload i p hi with hu | ⟨rfl, rfl⟩
    · rcases hload i' p' hi' with hu' | ⟨rfl, rfl⟩
      · exact h.sorted i i' p p' hu hu' hlt
      · exact hy.1 i p hu
    · -- the new load is at the last index
      have := hi'.1.2
      rw [hhead, hsize] at this
      omega
  · intro i p hi
    rcases hload i p hi with hu | ⟨rfl, rfl⟩
    · rw [hinsts p (hy.1 i p hu).ne]
      exact h.isLoad i p hu
    · exact hkind
  · intro j s hj
    obtain ⟨hj', he⟩ := hstore j s hj
    rw [he]
    exact h.notLoad j s hj'
  · intro j s hj hs
    obtain ⟨hj', he⟩ := hstore j s hj
    rw [he] at hs ⊢
    have := h.lqIt_le j s hj' hs
    rw [hhead, hsize]
    omega
  · intro j s hj hs hc
    obtain ⟨hj', he⟩ := hstore j s hj
    rw [he] at hs ⊢
    rw [hhead]
    exact h.head_le j s hj' hs hc
  · intro j s hj hs i p hi
    obtain ⟨hj', he⟩ := hstore j s hj
    rw [he] at hs ⊢
    rcases hload i p hi with hu | ⟨rfl, rfl⟩
    · exact h.separates j s hj' hs i p hu
    · -- neither side holds: the new load is behind every live store
      exact iff_of_false (Nat.not_lt.mpr (h.lqIt_le j s hj' hs)) (lt_asymm (hy.2 j s hj'))

/-- The store queue grows by a store younger than everything, which records the end
of the load queue. -/
theorem AgeOrdered.grow_store {x : SQEntry} (hx : x.inst = some q)
    (hfull : u.storeQueue.full = false)
    (hsq : w.storeQueue = u.storeQueue.advanceTail.set u.storeQueue.advanceTail.tail x)
    (hlq : w.loadQueue = u.loadQueue) (hlqIt : (w.insts q).lqIt = u.loadQueue.endIdx)
    (hkind : (w.insts q).isLoad = false) : AgeOrdered w c := by
  obtain ⟨hfits, hvalid, hold, hnew⟩ := grown_valid h.sqFits hfull x
  rw [← hsq] at hfits hvalid hold hnew
  rw [CircularQueue.endIdx_eq h.lqFits] at hlqIt
  have hload : ∀ i p, w.LoadAt i p ↔ u.LoadAt i p := by
    intro i p
    unfold LSQUnit.LoadAt
    rw [hlq]
  have hstore : ∀ j s, w.StoreAt j s → (u.StoreAt j s ∧ w.insts s = u.insts s) ∨ s = q := by
    rintro j s ⟨hj, hs⟩
    rcases (hvalid j).mp hj with hj' | rfl
    · have hu : u.StoreAt j s := ⟨hj', by rw [← hold j hj']; exact hs⟩
      exact .inl ⟨hu, hinsts s (hy.2 j s hu).ne⟩
    · rw [hnew, hx] at hs
      exact .inr (Option.some.inj hs).symm
  constructor
  · exact hlq ▸ h.lqFits
  · exact hfits
  · intro i hi
    rw [hlq] at hi
    obtain ⟨p, hp⟩ := h.loadInst i hi
    exact ⟨p, (hload i p).mpr hp⟩
  · intro i i' p p' hi hi'
    exact h.sorted i i' p p' ((hload i p).mp hi) ((hload i' p').mp hi')
  · intro i p hi
    have hu := (hload i p).mp hi
    rw [hinsts p (hy.1 i p hu).ne]
    exact h.isLoad i p hu
  · intro j s hj
    rcases hstore j s hj with ⟨hj', he⟩ | rfl
    · rw [he]
      exact h.notLoad j s hj'
    · exact hkind
  · intro j s hj hs
    rw [hlq]
    rcases hstore j s hj with ⟨hj', he⟩ | rfl
    · rw [he] at hs ⊢
      exact h.lqIt_le j s hj' hs
    · exact hlqIt.le
  · intro j s hj hs hc
    rw [hlq]
    rcases hstore j s hj with ⟨hj', he⟩ | rfl
    · rw [he] at hs ⊢
      exact h.head_le j s hj' hs hc
    · rw [hlqIt]
      exact Nat.le_add_right _ _
  · intro j s hj hs i p hi
    have hi' := (hload i p).mp hi
    rcases hstore j s hj with ⟨hj', he⟩ | rfl
    · rw [he] at hs ⊢
      exact h.separates j s hj' hs i p hi'
    · rw [hlqIt]
      exact iff_of_true hi'.1.2 (hy.1 i p hi')

end Insert

theorem quiet_trackHtm (hf : u.storeQueue.Fits) (h : u.trackHtm q = .ok u') : Quiet u u' := by
  unfold LSQUnit.trackHtm at h
  obtain ⟨v, hv, h⟩ := bind_eq_ok.mp h
  have h1 : Quiet u v := by
    split at hv
    · unfold LSQUnit.startHtm at hv
      dsimp only at hv
      -- the instruction changes, then the counters
      have hinst : ∀ i, KeepsPlace (u.insts q) i → ∀ w : LSQUnit,
          w.depCheckShift = u.depCheckShift → w.loadQueue = u.loadQueue →
          w.storeQueue = u.storeQueue → w.insts = (u.setInst q i).insts → Quiet u w := by
        intro i hi w h1 h2 h3 h4
        have h5 := quiet_setInst hf hi
        exact h5.trans (quiet_of_same h5.sqFits h1 h2 h3 h4)
      split at hv
      · cases hv
      split at hv
      · cases hv
        exact hinst _ (by exact ⟨rfl, rfl, id⟩) _ rfl rfl rfl rfl
      · cases hv
        exact hinst _ (by exact ⟨rfl, rfl, id⟩) _ rfl rfl rfl rfl
    · cases hv
      exact Quiet.refl hf
  cases h
  split
  · exact h1.trans (quiet_of_same h1.sqFits rfl rfl rfl rfl)
  · exact h1

theorem LSQEntry.inst_of_set {x x' : LSQEntry} (h : x.set q = .ok x') :
    x'.inst = some q := by
  unfold LSQEntry.set at h
  obtain ⟨_, _, h⟩ := bind_eq_ok.mp h
  cases h
  rfl

theorem SQEntry.inst_of_set {x x' : SQEntry} (h : x.set q = .ok x') :
    x'.inst = some q := by
  unfold SQEntry.set at h
  obtain ⟨base, hbase, h⟩ := bind_eq_ok.mp h
  cases h
  exact LSQEntry.inst_of_set hbase

theorem AgeOrdered.insertLoad (h : AgeOrdered u c) (hy : u.Youngest q) (hkind : i.isLoad = true)
    (hok : (u.setInst q i).insertLoad q = .ok u') :
    AgeOrdered u' c := by
  unfold LSQUnit.insertLoad at hok
  obtain ⟨_, hfull, hok⟩ := bind_eq_ok.mp hok
  obtain ⟨_, _, hok⟩ := bind_eq_ok.mp hok
  obtain ⟨x, hx, hok⟩ := bind_eq_ok.mp hok
  obtain ⟨_, _, hok⟩ := bind_eq_ok.mp hok
  have hfull' : (u.setInst q i).loadQueue.full = false := by simpa [require_eq_ok] using hfull
  have hgrow := h.grow_load hy (w := { (u.setInst q i).setInst q { (u.setInst q i).insts q with
      sqIt := u.storeQueue.endIdx
      lqIdx := u.loadQueue.advanceTail.tail
      lqIt := u.loadQueue.advanceTail.tail } with
    loadQueue := u.loadQueue.advanceTail.set u.loadQueue.advanceTail.tail x
    loads := u.loads + 1 }) (fun s hs => by
      show ((u.setInst q i).setInst q _).insts s = _
      rw [LSQUnit.insts_setInst_of_ne _ _ hs, LSQUnit.insts_setInst_of_ne _ _ hs])
    (LSQEntry.inst_of_set hx) hfull' rfl rfl (by
      show (((u.setInst q i).setInst q _).insts q).isLoad = _
      rw [LSQUnit.insts_setInst, LSQUnit.insts_setInst]
      exact hkind)
  exact hgrow.quiet (quiet_trackHtm hgrow.sqFits hok)

theorem AgeOrdered.insertStore (h : AgeOrdered u c) (hy : u.Youngest q) (hkind : i.isLoad = false)
    (hok : (u.setInst q i).insertStore q = .ok u') : AgeOrdered u' c := by
  unfold LSQUnit.insertStore at hok
  obtain ⟨_, hfull, hok⟩ := bind_eq_ok.mp hok
  obtain ⟨_, _, hok⟩ := bind_eq_ok.mp hok
  obtain ⟨_, _, hok⟩ := bind_eq_ok.mp hok
  obtain ⟨x, hx, hok⟩ := bind_eq_ok.mp hok
  cases hok
  have hfull' : (u.setInst q i).storeQueue.full = false := by simpa [require_eq_ok] using hfull
  refine h.grow_store hy ?_ (SQEntry.inst_of_set hx) hfull' rfl rfl ?_ ?_
  · intro s hs
    show ((u.setInst q i).setInst q _).insts s = _
    rw [LSQUnit.insts_setInst_of_ne _ _ hs, LSQUnit.insts_setInst_of_ne _ _ hs]
  · show (((u.setInst q i).setInst q _).insts q).lqIt = _
    rw [LSQUnit.insts_setInst]
    rfl
  · show (((u.setInst q i).setInst q _).insts q).isLoad = _
    rw [LSQUnit.insts_setInst, LSQUnit.insts_setInst]
    exact hkind

/-! ## Shrinking the load queue -/

/-- The load queue loses entries; what is left to show is that the recorded indices
stay between its ends. -/
theorem AgeOrdered.shrink (h : AgeOrdered u c) (hfits : u'.loadQueue.Fits)
    (hload : ∀ i, u'.loadQueue.IsValidIdx i → u.loadQueue.IsValidIdx i ∧
      (u'.loadQueue.get i).inst = (u.loadQueue.get i).inst) (hsq : u'.storeQueue = u.storeQueue)
    (hplace : ∀ q, KeepsPlace (u.insts q) (u'.insts q))
    (hend : ∀ j s, u.StoreAt j s → (u'.insts s).squashed = false →
      (u.insts s).lqIt ≤ u'.loadQueue.head + u'.loadQueue.size)
    (hhead : ∀ j s, u.StoreAt j s → (u'.insts s).squashed = false → c < s →
      u'.loadQueue.head ≤ (u.insts s).lqIt) : AgeOrdered u' c := by
  have hload' : ∀ i p, u'.LoadAt i p → u.LoadAt i p := by
    rintro i p ⟨hi, hp⟩
    obtain ⟨hi', he⟩ := hload i hi
    exact ⟨hi', he ▸ hp⟩
  have hstore : ∀ j s, u'.StoreAt j s → u.StoreAt j s := by
    intro j s hj
    unfold LSQUnit.StoreAt at hj ⊢
    rwa [hsq] at hj
  have halive : ∀ s, (u'.insts s).squashed = false → (u.insts s).squashed = false := by
    intro s hs
    by_contra hcon
    rw [(hplace s).squashed (by simpa using hcon)] at hs
    cases hs
  constructor
  · exact hfits
  · exact hsq ▸ h.sqFits
  · intro i hi
    obtain ⟨hi', he⟩ := hload i hi
    obtain ⟨p, hp⟩ := h.loadInst i hi'
    exact ⟨p, hi, he.trans hp.2⟩
  · intro i i' p p' hi hi'
    exact h.sorted i i' p p' (hload' i p hi) (hload' i' p' hi')
  · intro i p hi
    rw [(hplace p).isLoad]
    exact h.isLoad i p (hload' i p hi)
  · intro j s hj
    rw [(hplace s).isLoad]
    exact h.notLoad j s (hstore j s hj)
  · intro j s hj hs
    rw [(hplace s).lqIt]
    exact hend j s (hstore j s hj) hs
  · intro j s hj hs hc
    rw [(hplace s).lqIt]
    exact hhead j s (hstore j s hj) hs hc
  · intro j s hj hs i p hi
    rw [(hplace s).lqIt]
    exact h.separates j s (hstore j s hj) (halive s hs) i p (hload' i p hi)

/-- The head load commits. -/
theorem AgeOrdered.commitLoad (h : AgeOrdered u c) (hq : u.loadQueue.front.inst = some q)
    (hle : q ≤ c) (hok : u.commitLoad = .ok u') :
    AgeOrdered u' c := by
  unfold LSQUnit.commitLoad at hok
  obtain ⟨_, _, hok⟩ := bind_eq_ok.mp hok
  obtain ⟨lq, hlq, hok⟩ := bind_eq_ok.mp hok
  cases hok
  rw [orFail_eq_ok] at hlq
  obtain ⟨hsize, rfl⟩ := CircularQueue.popFront_eq_some hlq
  have hsize' : 1 ≤ u.loadQueue.size := hsize
  have hhead : u.loadQueue.IsValidIdx u.loadQueue.head := ⟨le_refl _, by omega⟩
  refine h.shrink (CircularQueue.fits_popFront (CircularQueue.fits_set h.lqFits _ _) hlq) ?_ rfl
    (fun _ => ⟨rfl, rfl, id⟩) ?_ ?_
  · rintro i ⟨h1, h2⟩
    have h1' : u.loadQueue.head + 1 ≤ i := h1
    have h2' : i < u.loadQueue.head + 1 + (u.loadQueue.size - 1) := h2
    have hi : u.loadQueue.IsValidIdx i := ⟨by omega, by omega⟩
    exact ⟨hi, congrArg LSQEntry.inst
      (CircularQueue.get_set_of_ne h.lqFits hhead hi (by omega) u.loadQueue.front.clear)⟩
  · intro j s hj hs
    have := h.lqIt_le j s hj hs
    show _ ≤ u.loadQueue.head + 1 + (u.loadQueue.size - 1)
    omega
  · -- a store that has not committed is younger than the load that just did
    intro j s hj hs hc
    show u.loadQueue.head + 1 ≤ _
    exact (h.separates j s hj hs _ q ⟨hhead, hq⟩).mpr (lt_of_le_of_lt hle hc)

theorem headLoadDone_true {y : InstSeqNum} (h : u.headLoadDone y = .ok true) :
    ∃ q, u.loadQueue.front.inst = some q ∧ q ≤ y := by
  unfold LSQUnit.headLoadDone at h
  split at h
  · cases h
  · obtain ⟨q, hq, h⟩ := bind_eq_ok.mp h
    exact ⟨q, orFail_eq_ok.mp hq, of_decide_eq_true (Except.ok.inj h)⟩

theorem AgeOrdered.commitLoadsLoop {y : InstSeqNum} {k : ℕ} (h : AgeOrdered u c) (hy : y ≤ c)
    (hok : u.commitLoadsLoop y k = .ok u') :
    AgeOrdered u' c := by
  induction k generalizing u with
  | zero =>
    unfold LSQUnit.commitLoadsLoop at hok
    obtain ⟨b, hb, hok⟩ := bind_eq_ok.mp hok
    cases b with
    | false =>
      cases hok
      exact h
    | true =>
      obtain ⟨q, hq, hle⟩ := headLoadDone_true hb
      exact h.commitLoad hq (le_trans hle hy) hok
  | succ k ih =>
    unfold LSQUnit.commitLoadsLoop at hok
    obtain ⟨b, hb, hok⟩ := bind_eq_ok.mp hok
    cases b with
    | false =>
      cases hok
      exact h
    | true =>
      obtain ⟨q, hq, hle⟩ := headLoadDone_true hb
      obtain ⟨v, hv, hok⟩ := bind_eq_ok.mp hok
      exact ih (h.commitLoad hq (le_trans hle hy) hv) hok

theorem AgeOrdered.commitLoads {y : InstSeqNum} (h : AgeOrdered u c)
    (hok : u.commitLoads y = .ok u') : AgeOrdered u' (max c y) := by
  unfold LSQUnit.commitLoads at hok
  obtain ⟨_, _, hok⟩ := bind_eq_ok.mp hok
  exact (h.mono (le_max_left c y)).commitLoadsLoop (le_max_right c y) hok

/-! ## Squashing -/

/-- Every instruction younger than `n` is marked squashed. -/
def MarkedAbove (u : LSQUnit) (n : InstSeqNum) : Prop := ∀ q, n < q → (u.insts q).squashed = true

/-- The youngest load is squashed. -/
theorem AgeOrdered.squashLoad {n : InstSeqNum} (h : AgeOrdered u c) (hmark : MarkedAbove u n)
    (hq : u.loadQueue.back.inst = some q) (hlt : n < q) (hok : u.squashLoad q = .ok u') :
    AgeOrdered u' c ∧ MarkedAbove u' n := by
  unfold LSQUnit.squashLoad at hok
  obtain ⟨lq, hlq, hok⟩ := bind_eq_ok.mp hok
  rw [orFail_eq_ok] at hlq
  obtain ⟨hsize, hlq'⟩ := CircularQueue.popBack_eq_some hlq
  have hsize' : 1 ≤ u.loadQueue.size := hsize
  have hpos := h.lqFits.head_pos
  have htail : u.loadQueue.tail = u.loadQueue.head + u.loadQueue.size - 1 := rfl
  have hvalid : u.loadQueue.IsValidIdx u.loadQueue.tail := by
    rw [htail]
    exact ⟨by omega, by omega⟩
  -- the stall record does not matter to the queues and the instructions
  obtain ⟨h1, h2, h3⟩ : u'.loadQueue = lq ∧ u'.storeQueue = u.storeQueue ∧
      u'.insts = (u.setInst q { u.insts q with squashed := true }).insts := by
    split at hok <;> cases hok <;> exact ⟨rfl, rfl, rfl⟩
  have hplace : ∀ p, KeepsPlace (u.insts p) (u'.insts p) := by
    intro p
    rw [h3]
    by_cases hp : p = q
    · subst hp
      rw [LSQUnit.insts_setInst]
      exact ⟨rfl, rfl, fun _ => rfl⟩
    · rw [LSQUnit.insts_setInst_of_ne _ _ hp]
      exact ⟨rfl, rfl, id⟩
  have hmark' : MarkedAbove u' n := fun p hp => (hplace p).squashed (hmark p hp)
  have hhead : u'.loadQueue.head = u.loadQueue.head := by rw [h1, hlq']; rfl
  have hsz : u'.loadQueue.size = u.loadQueue.size - 1 := by rw [h1, hlq']; rfl
  refine ⟨h.shrink ?_ ?_ h2 hplace ?_ ?_, hmark'⟩
  · rw [h1]
    exact CircularQueue.fits_popBack (CircularQueue.fits_set h.lqFits _ _) hlq
  · rintro i ⟨hi1, hi2⟩
    rw [hhead] at hi1
    rw [hhead, hsz] at hi2
    have hi : u.loadQueue.IsValidIdx i := ⟨hi1, by omega⟩
    refine ⟨hi, ?_⟩
    rw [h1, hlq']
    exact congrArg LSQEntry.inst (CircularQueue.get_set_of_ne h.lqFits hvalid hi
      (by rw [htail]; omega) u.loadQueue.back.clear)
  · -- a live store is not younger than the squash, so the removed load is behind it
    intro j s hj hs
    have hs' : (u.insts s).squashed = false := by
      by_contra hcon
      rw [(hplace s).squashed (by simpa using hcon)] at hs
      cases hs
    have hsn : ¬ n < s := fun hns => by
      rw [hmark' s hns] at hs
      cases hs
    have hnot : ¬ u.loadQueue.tail < (u.insts s).lqIt := by
      intro hcon
      have := (h.separates j s hj hs' _ q ⟨hvalid, hq⟩).mp hcon
      exact hsn (lt_trans hlt this)
    rw [hhead, hsz]
    rw [htail] at hnot
    omega
  · intro j s hj hs hc
    have hs' : (u.insts s).squashed = false := by
      by_contra hcon
      rw [(hplace s).squashed (by simpa using hcon)] at hs
      cases hs
    rw [hhead]
    exact h.head_le j s hj hs' hc

theorem AgeOrdered.squashLoads {n : InstSeqNum} {k : ℕ} (h : AgeOrdered u c)
    (hmark : MarkedAbove u n) (hok : u.squashLoads n k = .ok u') :
    AgeOrdered u' c ∧ MarkedAbove u' n := by
  induction k generalizing u with
  | zero =>
    unfold LSQUnit.squashLoads at hok
    split at hok
    · cases hok
      exact ⟨h, hmark⟩
    split at hok
    · cases hok
    rename_i q hq
    split at hok
    · rename_i hlt
      exact h.squashLoad hmark hq hlt hok
    · cases hok
      exact ⟨h, hmark⟩
  | succ k ih =>
    unfold LSQUnit.squashLoads at hok
    split at hok
    · cases hok
      exact ⟨h, hmark⟩
    split at hok
    · cases hok
    rename_i q hq
    split at hok
    · rename_i hlt
      obtain ⟨v, hv, hok⟩ := bind_eq_ok.mp hok
      obtain ⟨h1, hmark1⟩ := h.squashLoad hmark hq hlt hv
      exact ih h1 hmark1 hok
    · cases hok
      exact ⟨h, hmark⟩

theorem quiet_markSquashed (hf : u.storeQueue.Fits) (n : InstSeqNum) :
    Quiet u (u.markSquashed n) := by
  have hplace : ∀ q, KeepsPlace (u.insts q) ((u.markSquashed n).insts q) := by
    intro q
    show KeepsPlace _ (if n < q then _ else _)
    split
    · exact ⟨rfl, rfl, fun _ => rfl⟩
    · exact ⟨rfl, rfl, id⟩
  exact ⟨rfl, rfl, rfl, rfl, fun _ => rfl, hf, fun _ hj => ⟨hj, rfl⟩, fun q => (hplace q).isLoad,
    fun q => (hplace q).lqIt, fun q => (hplace q).squashed⟩

theorem AgeOrdered.squash {n : InstSeqNum} (h : AgeOrdered u c)
    (hok : (u.markSquashed n).squash n = .ok u') : AgeOrdered u' c := by
  have h1 := h.quiet (quiet_markSquashed h.sqFits n)
  have hmark : MarkedAbove (u.markSquashed n) n := fun q hq => by
    show DynInst.squashed (if n < q then _ else _) = true
    rw [if_pos hq]
  unfold LSQUnit.squash at hok
  obtain ⟨v, hv, hok⟩ := bind_eq_ok.mp hok
  obtain ⟨h2, -⟩ := h1.squashLoads hmark hv
  obtain ⟨_, _, hok⟩ := bind_eq_ok.mp hok
  have h3 := quiet_squashStores (by exact h2.sqFits) hok
  exact (h2.quiet (by exact quiet_of_same h2.sqFits rfl rfl rfl rfl)).quiet h3

/-! ## One step, and runs -/

theorem step_ageOrdered {m m' : Machine} {a : Action} (h : AgeOrdered m.unit m.committed)
    (hadm : Admissible m a) (hstep : m.step a = .ok m') : AgeOrdered m'.unit m'.committed := by
  cases a with
  | insertLoad q i =>
    obtain ⟨u, hu, hm⟩ := bind_eq_ok.mp hstep
    cases hm
    exact h.insertLoad hadm.2 hadm.1 hu
  | insertStore q i =>
    obtain ⟨u, hu, hm⟩ := bind_eq_ok.mp hstep
    cases hm
    exact h.insertStore hadm.2 hadm.1 hu
  | executeLoad q acc =>
    obtain ⟨r, hr, hm⟩ := bind_eq_ok.mp hstep
    cases hm
    exact h.quiet (quiet_executeLoad h.sqFits hr)
  | executeStore q acc =>
    obtain ⟨r, hr, hm⟩ := bind_eq_ok.mp hstep
    cases hm
    exact h.quiet (quiet_executeStore h.sqFits hr)
  | update q i =>
    cases hstep
    refine h.quiet (quiet_setInst h.sqFits ⟨rfl, rfl, fun hs => ?_⟩)
    show ((m.unit.insts q).squashed || i.squashed) = true
    rw [hs]
    rfl
  | commitLoads y =>
    obtain ⟨u, hu, hm⟩ := bind_eq_ok.mp hstep
    cases hm
    exact h.commitLoads hu
  | commitStores y =>
    obtain ⟨u, hu, hm⟩ := bind_eq_ok.mp hstep
    cases hm
    exact (h.quiet (quiet_commitStores h.sqFits hu)).mono (le_max_left _ y)
  | completeStore store_idx =>
    obtain ⟨u, hu, hm⟩ := bind_eq_ok.mp hstep
    cases hm
    exact h.quiet (quiet_completeStore h.sqFits hu)
  | storePostSend =>
    obtain ⟨u, hu, hm⟩ := bind_eq_ok.mp hstep
    cases hm
    exact h.quiet (quiet_storePostSend h.sqFits hu)
  | squash n =>
    obtain ⟨u, hu, hm⟩ := bind_eq_ok.mp hstep
    cases hm
    exact h.squash hu
  | getMemDepViolator =>
    cases hstep
    exact h.quiet (quiet_of_same h.sqFits rfl rfl rfl rfl)

/-- The states an admissible run reaches from the constructed unit. -/
def Reachable (m : Machine) : Prop :=
  ∃ lqEntries sqEntries depCheckShift checkLoads, Reached Admissible Machine.step
    (Machine.init lqEntries sqEntries depCheckShift checkLoads) m

/-- **The queues stay separated by age** in every reachable state. -/
theorem Reachable.ageOrdered {m : Machine} (h : Reachable m) :
    AgeOrdered m.unit m.committed := by
  obtain ⟨lqEntries, sqEntries, shift, checkLoads, hr⟩ := h
  exact hr.invariant (fun s a s' hs ha hstep => step_ageOrdered hs ha hstep)
    (ordered_init lqEntries sqEntries shift checkLoads)

/-! ## The ordering check -/

/-- The load `q` was passed by the store `s`: it has an address, is not strictly
ordered, and shares a block with the store. -/
def Passed (u : LSQUnit) (s q : InstSeqNum) : Prop :=
  (u.insts q).effAddrValid = true ∧ (u.insts q).strictlyOrdered = false ∧
    ShareBlock u.depCheckShift (u.insts s) (u.insts q)

/-- What the check of the store `s` leaves behind, of the loads from `lo` on. -/
structure Checked (u : LSQUnit) (s : InstSeqNum) (lo : ℕ) (u' : LSQUnit) : Prop where
  same : u' = { u with memDepViolator := u'.memDepViolator }
  complete : ∀ i q, lo ≤ i → u.LoadAt i q → Passed u s q → ∃ v, u'.memDepViolator = some v ∧ v ≤ q
  sound : u'.memDepViolator ≠ u.memDepViolator → ∃ i q, lo ≤ i ∧ u.LoadAt i q ∧ Passed u s q ∧
    u'.memDepViolator = some q

section Check

variable {u : LSQUnit} {c s : InstSeqNum} (h : AgeOrdered u c)
  (hstore : (u.insts s).isLoad = false) (hwrap : NonWrapping (u.insts s))
  (hloads : ∀ i q, u.LoadAt i q → (u.insts q).effAddrValid = true → NonWrapping (u.insts q))
include h hstore hwrap hloads

theorem checkViolationsLoop_spec {k lo : ℕ} (hlo : u.loadQueue.head ≤ lo)
    (hk : lo + k = u.loadQueue.head + u.loadQueue.size) :
    ∃ f u', u.checkViolationsLoop s k lo = .ok (f, u') ∧ Checked u s lo u' := by
  induction k generalizing lo with
  | zero =>
    refine ⟨.noFault, u, rfl, rfl, fun i q hi hq => ?_, fun hne => absurd rfl hne⟩
    have := hq.1.2
    omega
  | succ k ih =>
    have hvalid : u.loadQueue.IsValidIdx lo := ⟨hlo, by omega⟩
    obtain ⟨ld, hld⟩ := h.loadInst lo hvalid
    obtain ⟨f, u', hrest, hchecked⟩ := ih (by omega : u.loadQueue.head ≤ lo + 1) (by omega)
    -- a load that was not passed leaves the check to the rest of the queue
    have hskip : ¬ Passed u s ld → Checked u s lo u' := by
      intro hnot
      refine ⟨hchecked.same, fun i q hi hq hp => ?_, fun hne => ?_⟩
      · rcases Nat.lt_or_ge lo i with hlt | hge
        · exact hchecked.complete i q hlt hq hp
        · obtain rfl : i = lo := by omega
          exact absurd (hq.unique hld ▸ hp) hnot
      · obtain ⟨i, q, hi, hrest⟩ := hchecked.sound hne
        exact ⟨i, q, by omega, hrest⟩
    -- the loads from here on are not older than this one
    have hage : ∀ i q, lo ≤ i → u.LoadAt i q → ld ≤ q := by
      intro i q hi hq
      rcases hi.lt_or_eq with hlt | rfl
      · exact (h.sorted lo i ld q hld hq hlt).le
      · exact (hld.unique hq).le
    unfold LSQUnit.checkViolationsLoop
    rw [hld.2]
    dsimp only
    split
    · rename_i hinvalid
      refine ⟨f, u', hrest, hskip fun hp => ?_⟩
      rw [hp.1, hp.2.1] at hinvalid
      cases hinvalid
    rename_i haddr
    simp only [Bool.or_eq_true, Bool.not_eq_true', not_or, Bool.not_eq_false,
      Bool.not_eq_true] at haddr
    have hmeet := blocksMeet_iff u.depCheckShift hwrap (hloads lo ld hld haddr.1)
    split
    · rename_i hblocks
      have hpassed : Passed u s ld := ⟨haddr.1, haddr.2, hmeet.mp hblocks⟩
      rw [hstore, if_neg (by simp)]
      split
      · -- an older violator stays
        rename_i hany
        obtain ⟨v, hv, hlt⟩ : ∃ v, u.memDepViolator = some v ∧ v < ld := by
          cases hv : u.memDepViolator with
          | none => rw [hv] at hany; cases hany
          | some v =>
            rw [hv] at hany
            exact ⟨v, rfl, of_decide_eq_true hany⟩
        refine ⟨.noFault, u, rfl, rfl, fun i q hi hq _ => ?_, fun hne => absurd rfl hne⟩
        exact ⟨v, hv, le_trans hlt.le (hage i q hi hq)⟩
      · refine ⟨_, _, rfl, rfl, fun i q hi hq _ => ?_, fun _ => ?_⟩
        · exact ⟨ld, rfl, hage i q hi hq⟩
        · exact ⟨lo, ld, le_refl lo, hld, hpassed, rfl⟩
    · rename_i hblocks
      exact ⟨f, u', hrest, hskip fun hp => hblocks (hmeet.mpr hp.2.2)⟩

end Check

/-- The access of a store leaves the recorded violator alone. -/
theorem initiateAcc_memDepViolator {v : LSQUnit} {s : InstSeqNum} {acc : Access}
    (hkind : (u.insts s).isLoad = false) (h : u.initiateAcc s acc = .ok v) :
    v.memDepViolator = u.memDepViolator := by
  unfold LSQUnit.initiateAcc at h
  dsimp only at h
  split at h
  · cases h
    rfl
  · unfold LSQUnit.pushRequest at h
    simp only [LSQUnit.insts_setInst, hkind] at h
    unfold LSQUnit.write at h
    obtain ⟨_, _, h⟩ := bind_eq_ok.mp h
    obtain ⟨_, _, h⟩ := bind_eq_ok.mp h
    obtain ⟨_, _, h⟩ := bind_eq_ok.mp h
    cases h
    rfl

/-- The state in which `executeStore` runs the ordering check: the access has been
initiated without a fault and has written its entry. -/
structure ReachesCheck (u : LSQUnit) (s : InstSeqNum) (acc : Access) (v : LSQUnit) : Prop where
  stores : u.stores ≠ 0
  notSquashed : (u.insts s).squashed = false
  initiated : u.initiateAcc s acc = .ok v
  noFault : acc.fault = false
  notDelayed : acc.translationDelayed = false
  predicate : acc.predicate = true
  size : (v.storeQueue.get (u.insts s).sqIdx).size ≠ 0

/-- A store that reaches the check runs it from its recorded index. -/
theorem executeStore_eq_check {v : LSQUnit} {s : InstSeqNum} {acc : Access} (hf : u.storeQueue.Fits)
    (h : ReachesCheck u s acc v) :
    ∃ w, Quiet v w ∧ w.insts = v.insts ∧ w.memDepViolator = v.memDepViolator ∧
      u.executeStore s acc = w.checkViolations (u.insts s).lqIt s := by
  have hstep : u.executeStore s acc =
      (if (v.insts s).isStoreConditional || (v.insts s).isAtomic then
        LSQUnit.checkViolations { v with
          storeQueue := v.storeQueue.set (u.insts s).sqIdx
            { v.storeQueue.get (u.insts s).sqIdx with canWB := true }
          storesToWB := v.storesToWB + 1 } (u.insts s).lqIt s
      else v.checkViolations (u.insts s).lqIt s) := by
    unfold LSQUnit.executeStore
    rw [h.initiated, h.notSquashed, h.noFault, h.notDelayed, h.predicate,
      decide_eq_true h.stores]
    show (if (v.storeQueue.get (u.insts s).sqIdx).size = 0 then _ else _) = _
    rw [if_neg h.size]
    rfl
  have hfv := (quiet_initiateAcc hf h.initiated).sqFits
  rw [hstep]
  split
  · refine ⟨{ v with
      storeQueue := v.storeQueue.set (u.insts s).sqIdx
        { v.storeQueue.get (u.insts s).sqIdx with canWB := true }
      storesToWB := v.storesToWB + 1 }, ?_, rfl, rfl, rfl⟩
    apply quiet_setStore hfv
    rfl
  · exact ⟨v, Quiet.refl hfv, rfl, rfl, rfl⟩

/-! ## Main result -/

/-- **Violation detection is complete and sound.**  In every reachable state, a store
that executes without a fault checks every younger load: when accesses do not wrap
around the address space, a load it was passed by is reported or an older violator
stands, and a load that becomes the violator is younger than the store and was
passed by it. -/
theorem executeStore_detects {m : Machine} {s : InstSeqNum} {acc : Access} {v : LSQUnit}
    (hm : Reachable m) (hadm : Admissible m (.executeStore s acc))
    (hcheck : ReachesCheck m.unit s acc v) (hwrap : NonWrapping (v.insts s))
    (hloads : ∀ i q, v.LoadAt i q → (v.insts q).effAddrValid = true → NonWrapping (v.insts q)) :
    ∃ f u', m.unit.executeStore s acc = .ok (f, u') ∧
      (∀ i q, v.LoadAt i q → s < q → Passed v s q →
        ∃ ld, u'.memDepViolator = some ld ∧ ld ≤ q) ∧
      (u'.memDepViolator ≠ m.unit.memDepViolator →
        ∃ i q, v.LoadAt i q ∧ s < q ∧ Passed v s q ∧ u'.memDepViolator = some q) := by
  obtain ⟨hcommit, j, hj⟩ := hadm
  have hord := hm.ageOrdered
  have hquiet := quiet_initiateAcc hord.sqFits hcheck.initiated
  obtain ⟨w, hvw, hinsts, hviol, heq⟩ := executeStore_eq_check hord.sqFits hcheck
  have hw := (hord.quiet hquiet).quiet hvw
  have hmw := hquiet.trans hvw
  have hload : ∀ i q, w.LoadAt i q ↔ v.LoadAt i q := by
    intro i q
    unfold LSQUnit.LoadAt CircularQueue.IsValidIdx
    rw [hvw.lqHead, hvw.lqSize, hvw.lqInst]
  have hloadm : ∀ i q, w.LoadAt i q ↔ m.unit.LoadAt i q := by
    intro i q
    unfold LSQUnit.LoadAt CircularQueue.IsValidIdx
    rw [hmw.lqHead, hmw.lqSize, hmw.lqInst]
  have hpassed : ∀ q, Passed w s q ↔ Passed v s q := by
    intro q
    unfold Passed
    rw [hinsts, hvw.depCheckShift]
  have hkind : (m.unit.insts s).isLoad = false := hord.notLoad j s hj
  -- the recorded index lies between the ends of the queue and splits it at the store
  have hlo : w.loadQueue.head ≤ (m.unit.insts s).lqIt := by
    rw [hmw.lqHead]
    exact hord.head_le j s hj hcheck.notSquashed hcommit
  have hhi : (m.unit.insts s).lqIt ≤ w.loadQueue.head + w.loadQueue.size := by
    rw [hmw.lqHead, hmw.lqSize]
    exact hord.lqIt_le j s hj hcheck.notSquashed
  have hsplit : ∀ i q, w.LoadAt i q → ((m.unit.insts s).lqIt ≤ i ↔ s < q) := by
    intro i q hi
    have hi' := (hloadm i q).mp hi
    have hne : q ≠ s := by
      rintro rfl
      have := hord.isLoad i q hi'
      rw [hkind] at this
      cases this
    rw [← not_lt, hord.separates j s hj hcheck.notSquashed i q hi', not_lt]
    exact ⟨fun hle => lt_of_le_of_ne hle hne.symm, le_of_lt⟩
  obtain ⟨f, u', hrun, hchecked⟩ := checkViolationsLoop_spec hw (s := s)
    (by rw [hmw.isLoad]; exact hkind) (by rw [hinsts]; exact hwrap)
    (fun i q hi => by rw [hinsts]; exact hloads i q ((hload i q).mp hi))
    (k := w.loadQueue.endIdx - (m.unit.insts s).lqIt) hlo
    (by rw [CircularQueue.endIdx_eq hw.lqFits]; omega)
  refine ⟨f, u', ?_, fun i q hi hlt hp => ?_, fun hne => ?_⟩
  · rw [heq]
    refine bind_eq_ok.mpr ⟨(), require_ok (decide_eq_true ?_), hrun⟩
    rw [CircularQueue.endIdx_eq hw.lqFits]
    exact hhi
  · have hi' := (hload i q).mpr hi
    exact hchecked.complete i q ((hsplit i q hi').mpr hlt) hi' ((hpassed q).mpr hp)
  · obtain ⟨i, q, hi, hiq, hp, hq⟩ := hchecked.sound (by
      rw [hviol, initiateAcc_memDepViolator hkind hcheck.initiated]
      exact hne)
    exact ⟨i, q, (hload i q).mp hiq, (hsplit i q hiq).mp hi, (hpassed q).mp hp, hq⟩

/-! ## A load that runs ahead of a store -/

/-- An access of `n` bytes at `a`. -/
def accessAt (a : Addr) (n : BitVec 32) : Access :=
  let main : Request := { vaddr := a, size := n }
  { push := some { req := { mainRequest := some main, request := main, size := n }, size := n } }

/-- A store and a younger load are dispatched, and the load executes first. -/
def loadFirstRun (a : Addr) (n : BitVec 32) : List Action :=
  [.insertStore 1 {}, .insertLoad 2 { isLoad := true }, .executeLoad 2 (accessAt a n)]

def loadFirst (a : Addr) (n : BitVec 32) : Machine :=
  match run Machine.step (Machine.init 4 4 0 false) (loadFirstRun a n) with
  | .ok m => m
  | .error _ => Machine.init 4 4 0 false

theorem loadFirst_reachable (a : Addr) (n : BitVec 32) : Reachable (loadFirst a n) := by
  refine ⟨4, 4, 0, false, loadFirstRun a n, ⟨⟨rfl, ?_, ?_⟩, ?_⟩, rfl⟩
  · rintro i q ⟨⟨h1, h2⟩, -⟩
    exact absurd (lt_of_lt_of_le h2 h1) (lt_irrefl _)
  · rintro j s ⟨⟨h1, h2⟩, -⟩
    exact absurd (lt_of_lt_of_le h2 h1) (lt_irrefl _)
  intro m1 hm1
  obtain rfl := Except.ok.inj hm1
  refine ⟨⟨rfl, ?_, ?_⟩, fun _ _ => ⟨trivial, fun _ _ => trivial⟩⟩
  · rintro i q ⟨⟨h1, h2⟩, -⟩
    exact absurd (lt_of_lt_of_le h2 h1) (lt_irrefl _)
  · rintro j s ⟨⟨h1, h2⟩, h3⟩
    -- the only store is the first one
    have h1' : 1 ≤ j := h1
    have h2' : j < 1 + 1 := h2
    obtain rfl : j = 1 := by omega
    have h3' : some 1 = some s := h3
    rw [← Option.some.inj h3']
    decide

/-- The state in which the store at `b` is checked. -/
def storeSecond (a b : Addr) (n k : BitVec 32) : LSQUnit :=
  match (loadFirst a n).unit.initiateAcc 1 (accessAt b k) with
  | .ok v => v
  | .error _ => (loadFirst a n).unit

/-- The store that executes second reports the load that ran ahead. -/
theorem executeStore_detects_loadFirst :
    ∃ f u', (loadFirst 0x1000 8).unit.executeStore 1 (accessAt 0x1004 4) = .ok (f, u') ∧
      ∃ ld, u'.memDepViolator = some ld ∧ ld ≤ 2 := by
  have hcheck : ReachesCheck (loadFirst 0x1000 8).unit 1 (accessAt 0x1004 4)
      (storeSecond 0x1000 0x1004 8 4) := ⟨by decide, rfl, rfl, rfl, rfl, rfl, by decide⟩
  have hloads : ∀ i q, (storeSecond 0x1000 0x1004 8 4).LoadAt i q → q = 2 := by
    rintro i q ⟨⟨h1, h2⟩, h3⟩
    have h1' : 1 ≤ i := h1
    have h2' : i < 1 + 1 := h2
    obtain rfl : i = 1 := by omega
    have h3' : some 2 = some q := h3
    exact (Option.some.inj h3').symm
  obtain ⟨f, u', hok, hall, -⟩ := executeStore_detects (loadFirst_reachable 0x1000 8)
    ⟨by decide, 1, ⟨by decide, by decide⟩, rfl⟩ hcheck ⟨by decide, by decide⟩
    (fun i q hi _ => by
      obtain rfl := hloads i q hi
      exact ⟨by decide, by decide⟩)
  refine ⟨f, u', hok, hall 1 2 ⟨⟨by decide, by decide⟩, rfl⟩ (by decide) ⟨rfl, rfl, ?_⟩⟩
  exact ⟨0x1004, ⟨by decide, by decide⟩, 0x1004, ⟨by decide, by decide⟩, rfl⟩

/-- A load that wraps around the top of the address space is missed. -/
theorem wrapping_load_missed :
    Reachable (loadFirst 0xfffffffffffffffc 8) ∧
      ReachesCheck (loadFirst 0xfffffffffffffffc 8).unit 1 (accessAt 0xfffffffffffffffe 1)
        (storeSecond 0xfffffffffffffffc 0xfffffffffffffffe 8 1) ∧
      (storeSecond 0xfffffffffffffffc 0xfffffffffffffffe 8 1).LoadAt 1 2 ∧
      Passed (storeSecond 0xfffffffffffffffc 0xfffffffffffffffe 8 1) 1 2 ∧
      ∃ u', (loadFirst 0xfffffffffffffffc 8).unit.executeStore 1 (accessAt 0xfffffffffffffffe 1) =
        .ok (.noFault, u') ∧ u'.memDepViolator = none := by
  refine ⟨loadFirst_reachable _ _, ⟨by decide, rfl, rfl, rfl, rfl, rfl, by decide⟩,
    ⟨⟨by decide, by decide⟩, rfl⟩, ⟨rfl, rfl, ?_⟩, _, rfl, rfl⟩
  exact ⟨0xfffffffffffffffe, ⟨by decide, by decide⟩, 0xfffffffffffffffe,
    ⟨by decide, by decide⟩, rfl⟩

end Gem5.Lsq
