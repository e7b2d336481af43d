/-
# The capacity of the load/store queues

The queues of a unit are built with one slot more than the configured number of entries
(`LSQUnit::LSQUnit`, `cpu/o3/lsq_unit.cc`), and every test for room is against all slots:
`numFreeLoadEntries`, `lqFull` and the assertions of `insertLoad`.  So an admitted instruction can
take the spare slot.

Outside of insertion no operation makes a queue longer, and the counters `loads` and `stores` are
the sizes of the queues (`Steady`).  A thread keeps within its configured entries as long as no
instruction is inserted when one slot is free (`capacity_kept`).
-/
import Gem5.LsqPolicy
import Gem5.MemOrder

namespace Gem5.Lsq

open Runs

/-! ## Room -/

/-- `LSQUnit::numFreeLoadEntries`, an `unsigned`. -/
def LSQUnit.numFreeLoadEntries (u : LSQUnit) : ℕ :=
  ((u.loadQueue.capacity - u.loads) % 2 ^ 32).toNat

/-- `LSQUnit::numFreeStoreEntries` -/
def LSQUnit.numFreeStoreEntries (u : LSQUnit) : ℕ :=
  ((u.storeQueue.capacity - u.stores) % 2 ^ 32).toNat

/-! ## Operations that insert nothing -/

/-- The operation from `u` to `u'` made no queue longer, and changed the counters with the sizes. -/
structure Steady (u u' : LSQUnit) : Prop where
  lqCapacity : u'.loadQueue.capacity = u.loadQueue.capacity
  sqCapacity : u'.storeQueue.capacity = u.storeQueue.capacity
  loads : u'.loads - u'.loadQueue.size = u.loads - u.loadQueue.size
  stores : u'.stores - u'.storeQueue.size = u.stores - u.storeQueue.size
  lqSize : u'.loadQueue.size ≤ u.loadQueue.size
  sqSize : u'.storeQueue.size ≤ u.storeQueue.size

theorem Steady.trans {u v w : LSQUnit} (h : Steady u v) (h' : Steady v w) : Steady u w where
  lqCapacity := h'.lqCapacity.trans h.lqCapacity
  sqCapacity := h'.sqCapacity.trans h.sqCapacity
  loads := h'.loads.trans h.loads
  stores := h'.stores.trans h.stores
  lqSize := h'.lqSize.trans h.lqSize
  sqSize := h'.sqSize.trans h.sqSize

theorem Steady.refl (u : LSQUnit) : Steady u u := ⟨rfl, rfl, rfl, rfl, le_rfl, le_rfl⟩

section

variable {u u' v : LSQUnit}

theorem steady_setInst (u : LSQUnit) (q : InstSeqNum) (i : DynInst) : Steady u (u.setInst q i) :=
  ⟨rfl, rfl, rfl, rfl, le_rfl, le_rfl⟩

theorem steady_setRequest (u : LSQUnit) (load_idx : ℕ) (r : Option LSQRequest) :
    Steady u (u.setRequest load_idx r) :=
  ⟨rfl, rfl, rfl, rfl, le_rfl, le_rfl⟩

variable {q inst : InstSeqNum} {req : LSQRequest} {k : ℕ}

theorem steady_forward {main : Request} {j : ℕ} {r : ReadOutcome × LSQUnit}
    (h : u.forward req main q j = .ok r) : Steady u r.2 := by
  unfold LSQUnit.forward at h
  obtain ⟨_, _, h⟩ := bind_eq_ok.mp h
  obtain ⟨_, _, h⟩ := bind_eq_ok.mp h
  obtain ⟨_, _, h⟩ := bind_eq_ok.mp h
  obtain ⟨_, _, h⟩ := bind_eq_ok.mp h
  cases h
  exact steady_setInst u _ _

theorem steady_hold {load_idx j : ℕ} {r : ReadOutcome × LSQUnit} (h : u.hold q load_idx j = .ok r) :
    Steady u r.2 := by
  unfold LSQUnit.hold at h
  obtain ⟨_, _, h⟩ := bind_eq_ok.mp h
  obtain ⟨st, _, h⟩ := bind_eq_ok.mp h
  obtain ⟨first, _, h⟩ := bind_eq_ok.mp h
  cases h
  cases first <;> exact ⟨rfl, rfl, rfl, rfl, le_rfl, le_rfl⟩

theorem steady_searchAndAccess {main : Request} {load_idx : ℕ} {r : ReadOutcome × LSQUnit}
    (h : u.searchAndAccess req main q load_idx = .ok r) : Steady u r.2 := by
  unfold LSQUnit.searchAndAccess at h
  obtain ⟨_, _, h⟩ := bind_eq_ok.mp h
  obtain ⟨found, _, h⟩ := bind_eq_ok.mp h
  cases found with
  | full j => exact steady_forward h
  | part j => exact steady_hold h
  | none =>
    cases h
    exact steady_setInst u _ _

theorem steady_read {load_idx : ℕ} {r : ReadOutcome × LSQUnit} (h : u.read req load_idx = .ok r) :
    Steady u r.2 := by
  have h1 := steady_setRequest u load_idx (some req)
  unfold LSQUnit.read at h
  obtain ⟨q, _, h⟩ := bind_eq_ok.mp h
  obtain ⟨main, _, h⟩ := bind_eq_ok.mp h
  obtain ⟨_, _, h⟩ := bind_eq_ok.mp h
  split at h
  · cases h
    exact ⟨rfl, rfl, rfl, rfl, le_rfl, le_rfl⟩
  split at h
  · obtain ⟨_, _, h⟩ := bind_eq_ok.mp h
    obtain ⟨_, _, h⟩ := bind_eq_ok.mp h
    cases h
    exact h1.trans (steady_setInst _ _ _)
  split at h
  · cases h
    exact h1.trans (steady_setInst _ _ _)
  · exact h1.trans (steady_searchAndAccess h)

theorem steady_write {data : ℕ → Byte} {store_idx : ℕ} (h : u.write req data store_idx = .ok u') :
    Steady u u' := by
  unfold LSQUnit.write at h
  obtain ⟨_, _, h⟩ := bind_eq_ok.mp h
  obtain ⟨_, _, h⟩ := bind_eq_ok.mp h
  obtain ⟨_, _, h⟩ := bind_eq_ok.mp h
  cases h
  exact ⟨rfl, rfl, rfl, rfl, le_rfl, le_rfl⟩

theorem steady_pushRequest {p : Push} (h : u.pushRequest inst p = .ok u') :
    Steady u u' := by
  unfold LSQUnit.pushRequest at h
  have h1 := steady_setInst u inst { u.insts inst with
    effAddr := p.req.request.vaddr, effSize := p.size, effAddrValid := true }
  dsimp only at h
  split at h
  · obtain ⟨r, hr, h⟩ := bind_eq_ok.mp h
    cases h
    exact h1.trans (steady_read hr)
  · exact h1.trans (steady_write h)

theorem steady_initiateAcc {acc : Access} (h : u.initiateAcc inst acc = .ok u') : Steady u u' := by
  have h1 := steady_setInst u inst { u.insts inst with strictlyOrdered := acc.strictlyOrdered }
  unfold LSQUnit.initiateAcc at h
  dsimp only at h
  split at h
  · cases h
    exact h1
  · exact h1.trans (steady_pushRequest h)

theorem steady_checkViolationsLoop {loadIt : ℕ} {u : LSQUnit} {r : ExecFault × LSQUnit}
    (h : u.checkViolationsLoop inst k loadIt = .ok r) :
    Steady u r.2 := by
  induction k generalizing loadIt u with
  | zero =>
    cases h
    exact .refl _
  | succ k ih =>
    unfold LSQUnit.checkViolationsLoop at h
    split at h
    · cases h
    rename_i ld hld
    split at h
    · exact ih h
    split at h
    · split at h
      · split at h
        · cases h
          exact ⟨rfl, rfl, rfl, rfl, le_rfl, le_rfl⟩
        · exact (steady_setInst u ld _).trans (ih h)
      · split at h
        · cases h
          exact .refl _
        · cases h
          exact ⟨rfl, rfl, rfl, rfl, le_rfl, le_rfl⟩
    · exact ih h

theorem steady_checkViolations {loadIt : ℕ} {r : ExecFault × LSQUnit}
    (h : u.checkViolations loadIt inst = .ok r) : Steady u r.2 := by
  unfold LSQUnit.checkViolations at h
  obtain ⟨_, _, h⟩ := bind_eq_ok.mp h
  exact steady_checkViolationsLoop h

theorem steady_executeLoad {acc : Access} {r : ExecFault × LSQUnit}
    (h : u.executeLoad inst acc = .ok r) : Steady u r.2 := by
  unfold LSQUnit.executeLoad at h
  obtain ⟨_, _, h⟩ := bind_eq_ok.mp h
  obtain ⟨v, hv, h⟩ := bind_eq_ok.mp h
  have h1 := steady_initiateAcc hv
  have hexec := h1.trans (steady_setInst v inst { v.insts inst with executed := true })
  split at h
  · obtain ⟨_, _, h⟩ := bind_eq_ok.mp h
    cases h
    exact hexec
  split at h
  · cases h
    exact h1
  split at h
  · cases h
    exact h1
  split at h
  · cases h
    dsimp only
    split
    · exact hexec
    · exact h1
  split at h
  · exact h1.trans (steady_checkViolations h)
  · cases h
    exact h1

theorem steady_executeStore {acc : Access} {r : ExecFault × LSQUnit}
    (h : u.executeStore inst acc = .ok r) : Steady u r.2 := by
  unfold LSQUnit.executeStore at h
  obtain ⟨_, _, h⟩ := bind_eq_ok.mp h
  obtain ⟨_, _, h⟩ := bind_eq_ok.mp h
  obtain ⟨v, hv, h⟩ := bind_eq_ok.mp h
  have h1 := steady_initiateAcc hv
  split at h
  · cases h
    exact h1
  split at h
  · cases h
    exact h1
  split at h
  · cases h
    exact h1
  obtain ⟨_, _, h⟩ := bind_eq_ok.mp h
  split at h
  · have h2 := steady_checkViolations h
    exact h1.trans ⟨h2.lqCapacity, h2.sqCapacity, h2.loads, h2.stores, h2.lqSize, h2.sqSize⟩
  · exact h1.trans (steady_checkViolations h)

/-! ## Commit and completion -/

theorem steady_commitLoad (h : u.commitLoad = .ok u') : Steady u u' := by
  unfold LSQUnit.commitLoad at h
  obtain ⟨_, _, h⟩ := bind_eq_ok.mp h
  obtain ⟨lq, hlq, h⟩ := bind_eq_ok.mp h
  cases h
  obtain ⟨hsize, rfl⟩ := CircularQueue.popFront_eq_some (orFail_eq_ok.mp hlq)
  have hsize' : 1 ≤ u.loadQueue.size := hsize
  refine ⟨rfl, rfl, ?_, rfl, Nat.sub_le _ 1, le_rfl⟩
  show u.loads - 1 - ((u.loadQueue.size - 1 : ℕ) : ℤ) = u.loads - u.loadQueue.size
  omega

theorem steady_commitLoadsLoop {y : InstSeqNum} (h : u.commitLoadsLoop y k = .ok u') :
    Steady u u' := by
  induction k generalizing u with
  | zero =>
    unfold LSQUnit.commitLoadsLoop at h
    obtain ⟨b, _, h⟩ := bind_eq_ok.mp h
    split at h
    · exact steady_commitLoad h
    · cases h
      exact .refl _
  | succ k ih =>
    unfold LSQUnit.commitLoadsLoop at h
    obtain ⟨b, _, h⟩ := bind_eq_ok.mp h
    split at h
    · obtain ⟨v, hv, h⟩ := bind_eq_ok.mp h
      exact (steady_commitLoad hv).trans (ih h)
    · cases h
      exact .refl _

theorem steady_commitStoresLoop {y : InstSeqNum} {i : ℕ} (h : u.commitStoresLoop y k i = .ok u') :
    Steady u u' := by
  induction k generalizing i u with
  | zero =>
    cases h
    exact .refl _
  | succ k ih =>
    unfold LSQUnit.commitStoresLoop at h
    obtain ⟨_, _, h⟩ := bind_eq_ok.mp h
    split at h
    · exact ih h
    obtain ⟨q, _, h⟩ := bind_eq_ok.mp h
    split at h
    · cases h
      exact .refl _
    · have h1 := ih h
      exact ⟨h1.lqCapacity, h1.sqCapacity, h1.loads, h1.stores, h1.lqSize, h1.sqSize⟩

theorem steady_popStore (h : u.popStore = .ok u') : Steady u u' := by
  unfold LSQUnit.popStore at h
  obtain ⟨sq, hsq, h⟩ := bind_eq_ok.mp h
  cases h
  obtain ⟨hsize, rfl⟩ := CircularQueue.popFront_eq_some (orFail_eq_ok.mp hsq)
  have hsize' : 1 ≤ u.storeQueue.size := hsize
  refine ⟨rfl, rfl, rfl, ?_, le_rfl, Nat.sub_le _ 1⟩
  show u.stores - 1 - ((u.storeQueue.size - 1 : ℕ) : ℤ) = u.stores - u.storeQueue.size
  omega

theorem steady_popStores (h : u.popStores k = .ok u') : Steady u u' := by
  induction k generalizing u with
  | zero => exact steady_popStore h
  | succ k ih =>
    unfold LSQUnit.popStores at h
    obtain ⟨v, hv, h⟩ := bind_eq_ok.mp h
    have h1 := steady_popStore hv
    split at h
    · exact h1.trans (ih h)
    · cases h
      exact h1

theorem steady_unstall (u : LSQUnit) (q : InstSeqNum) : Steady u (u.unstall q) := by
  unfold LSQUnit.unstall
  split <;> exact ⟨rfl, rfl, rfl, rfl, le_rfl, le_rfl⟩

theorem steady_completeStore {store_idx : ℕ} (h : u.completeStore store_idx = .ok u') :
    Steady u u' := by
  unfold LSQUnit.completeStore at h
  obtain ⟨_, _, h⟩ := bind_eq_ok.mp h
  obtain ⟨q, _, h⟩ := bind_eq_ok.mp h
  obtain ⟨v, hv, h⟩ := bind_eq_ok.mp h
  have h2 : Steady u v := by
    split at hv
    · have h1 := steady_popStores hv
      exact ⟨h1.lqCapacity, h1.sqCapacity, h1.loads, h1.stores, h1.lqSize, h1.sqSize⟩
    · cases hv
      exact ⟨rfl, rfl, rfl, rfl, le_rfl, le_rfl⟩
  cases h
  exact (h2.trans (steady_unstall v q)).trans (steady_setInst _ _ _)

theorem steady_storePostSend (h : u.storePostSend = .ok u') : Steady u u' := by
  unfold LSQUnit.storePostSend at h
  obtain ⟨q, _, h⟩ := bind_eq_ok.mp h
  cases h
  have h1 := steady_unstall u q
  dsimp only
  split
  · exact ⟨h1.lqCapacity, h1.sqCapacity, h1.loads, h1.stores, h1.lqSize, h1.sqSize⟩
  · exact ⟨h1.lqCapacity, h1.sqCapacity, h1.loads, h1.stores, h1.lqSize, h1.sqSize⟩

/-! ## Squash -/

theorem steady_squashLoad (h : u.squashLoad q = .ok u') : Steady u u' := by
  unfold LSQUnit.squashLoad at h
  obtain ⟨lq, hlq, h⟩ := bind_eq_ok.mp h
  obtain ⟨hsize, rfl⟩ := CircularQueue.popBack_eq_some (orFail_eq_ok.mp hlq)
  have hsize' : 1 ≤ u.loadQueue.size := hsize
  have hloads : u.loads - 1 - ((u.loadQueue.size - 1 : ℕ) : ℤ) = u.loads - u.loadQueue.size := by
    omega
  split at h <;> cases h <;> exact ⟨rfl, rfl, hloads, rfl, Nat.sub_le _ 1, le_rfl⟩

theorem steady_squashLoads {n : InstSeqNum} (h : u.squashLoads n k = .ok u') :
    Steady u u' := by
  induction k generalizing u with
  | zero =>
    unfold LSQUnit.squashLoads at h
    split at h
    · cases h
      exact .refl _
    split at h
    · cases h
    split at h
    · exact steady_squashLoad h
    · cases h
      exact .refl _
  | succ k ih =>
    unfold LSQUnit.squashLoads at h
    split at h
    · cases h
      exact .refl _
    split at h
    · cases h
    split at h
    · obtain ⟨v, hv, h⟩ := bind_eq_ok.mp h
      exact (steady_squashLoad hv).trans (ih h)
    · cases h
      exact .refl _

theorem steady_squashStore (h : u.squashStore q = .ok u') : Steady u u' := by
  unfold LSQUnit.squashStore at h
  obtain ⟨_, _, h⟩ := bind_eq_ok.mp h
  obtain ⟨sq, hsq, h⟩ := bind_eq_ok.mp h
  cases h
  obtain ⟨hsize, rfl⟩ := CircularQueue.popBack_eq_some (orFail_eq_ok.mp hsq)
  have hsize' : 1 ≤ u.storeQueue.size := hsize
  refine ⟨rfl, rfl, rfl, ?_, le_rfl, Nat.sub_le _ 1⟩
  show u.stores - 1 - ((u.storeQueue.size - 1 : ℕ) : ℤ) = u.stores - u.storeQueue.size
  omega

theorem steady_squashStores {n : InstSeqNum} (h : u.squashStores n k = .ok u') :
    Steady u u' := by
  induction k generalizing u with
  | zero =>
    unfold LSQUnit.squashStores at h
    split at h
    · cases h
      exact .refl _
    split at h
    · cases h
    split at h
    · split at h
      · cases h
        exact .refl _
      · exact steady_squashStore h
    · cases h
      exact .refl _
  | succ k ih =>
    unfold LSQUnit.squashStores at h
    split at h
    · cases h
      exact .refl _
    split at h
    · cases h
    split at h
    · split at h
      · cases h
        exact .refl _
      · obtain ⟨v, hv, h⟩ := bind_eq_ok.mp h
        exact (steady_squashStore hv).trans (ih h)
    · cases h
      exact .refl _

theorem steady_squash {n : InstSeqNum} (h : u.squash n = .ok u') : Steady u u' := by
  unfold LSQUnit.squash at h
  obtain ⟨v, hv, h⟩ := bind_eq_ok.mp h
  obtain ⟨_, _, h⟩ := bind_eq_ok.mp h
  have h1 := steady_squashStores h
  exact (steady_squashLoads hv).trans
    ⟨h1.lqCapacity, h1.sqCapacity, h1.loads, h1.stores, h1.lqSize, h1.sqSize⟩

/-! ## Insertion -/

theorem steady_trackHtm (h : u.trackHtm q = .ok u') : Steady u u' := by
  unfold LSQUnit.trackHtm at h
  obtain ⟨v, hv, h⟩ := bind_eq_ok.mp h
  have h1 : Steady u v := by
    split at hv
    · unfold LSQUnit.startHtm at hv
      dsimp only at hv
      split at hv
      · cases hv
      · split at hv <;> cases hv <;> exact ⟨rfl, rfl, rfl, rfl, le_rfl, le_rfl⟩
    · cases hv
      exact .refl _
  cases h
  split
  · exact ⟨h1.lqCapacity, h1.sqCapacity, h1.loads, h1.stores, h1.lqSize, h1.sqSize⟩
  · exact h1

/-- **A load** makes the load queue longer by one. -/
theorem insertLoad_steady (h : u.insertLoad q = .ok u') :
    ∃ w, Steady w u' ∧ w.loadQueue.capacity = u.loadQueue.capacity ∧
      w.loadQueue.size = u.loadQueue.size + 1 ∧ w.loads = u.loads + 1 ∧
      w.storeQueue = u.storeQueue ∧ w.stores = u.stores := by
  unfold LSQUnit.insertLoad at h
  obtain ⟨_, hfull, h⟩ := bind_eq_ok.mp h
  obtain ⟨_, _, h⟩ := bind_eq_ok.mp h
  obtain ⟨x, _, h⟩ := bind_eq_ok.mp h
  obtain ⟨_, _, h⟩ := bind_eq_ok.mp h
  rw [require_eq_ok, Bool.not_eq_true'] at hfull
  have hadvance := CircularQueue.advanceTail_of_not_full hfull
  have hcap : u.loadQueue.advanceTail.capacity = u.loadQueue.capacity := by rw [hadvance]
  have hsize : u.loadQueue.advanceTail.size = u.loadQueue.size + 1 := by rw [hadvance]
  exact ⟨_, steady_trackHtm h, hcap, hsize, rfl, rfl, rfl⟩

/-- **A store** makes the store queue longer by one. -/
theorem insertStore_steady (h : u.insertStore q = .ok u') :
    u'.storeQueue.capacity = u.storeQueue.capacity ∧
      u'.storeQueue.size = u.storeQueue.size + 1 ∧ u'.stores = u.stores + 1 ∧
      u'.loadQueue = u.loadQueue ∧ u'.loads = u.loads := by
  unfold LSQUnit.insertStore at h
  obtain ⟨_, hfull, h⟩ := bind_eq_ok.mp h
  obtain ⟨_, _, h⟩ := bind_eq_ok.mp h
  obtain ⟨_, _, h⟩ := bind_eq_ok.mp h
  obtain ⟨x, _, h⟩ := bind_eq_ok.mp h
  cases h
  rw [require_eq_ok, Bool.not_eq_true'] at hfull
  have hadvance := CircularQueue.advanceTail_of_not_full hfull
  have hcap : u.storeQueue.advanceTail.capacity = u.storeQueue.capacity := by rw [hadvance]
  have hsize : u.storeQueue.advanceTail.size = u.storeQueue.size + 1 := by rw [hadvance]
  exact ⟨hcap, hsize, rfl, rfl, rfl⟩

end

/-! ## The queue of all threads -/

/-- What happens to the queue: an action on the unit of a thread, or another set of active
threads. -/
inductive LSQAction (n : ℕ) where
  | unit (tid : Fin n) (a : Action)
  | setActiveThreads (active : List (Fin n))

variable {n : ℕ}

/-- One step of the queue; an action changes the unit of its thread. -/
def LSQ.step (s : LSQ n) : LSQAction n → Except Fail (LSQ n)
  | .unit tid a => do
      let m ← Machine.step ⟨s.thread tid, 0⟩ a
      return { s with thread := Function.update s.thread tid m.unit }
  | .setActiveThreads active => .ok { s with activeThreads := active }

/-- Admission by dispatch: the thread has a free entry, and its queue is not full. -/
def LSQ.Admits (s : LSQ n) : LSQAction n → Prop
  | .unit tid (.insertLoad _ _) =>
      0 < (s.thread tid).numFreeLoadEntries ∧ Returns (s.lqFullOf tid) false
  | .unit tid (.insertStore _ _) =>
      0 < (s.thread tid).numFreeStoreEntries ∧ Returns (s.sqFullOf tid) false
  | _ => True

/-- Nothing is inserted when only one slot is free. -/
def LSQ.Spares (s : LSQ n) : LSQAction n → Prop
  | .unit tid (.insertLoad _ _) => (s.thread tid).numFreeLoadEntries ≠ 1
  | .unit tid (.insertStore _ _) => (s.thread tid).numFreeStoreEntries ≠ 1
  | _ => True

/-- **A unit within its configured entries**: the counters are the sizes of the queues, which leave
the spare slot free. -/
structure Within (lqEntries sqEntries : ℕ) (u : LSQUnit) : Prop where
  lqCapacity : u.loadQueue.capacity = lqEntries + 1
  sqCapacity : u.storeQueue.capacity = sqEntries + 1
  loads : u.loads = u.loadQueue.size
  stores : u.stores = u.storeQueue.size
  lqSize : u.loadQueue.size ≤ lqEntries
  sqSize : u.storeQueue.size ≤ sqEntries

section

variable {lqEntries sqEntries : ℕ} {u u' : LSQUnit}

theorem Within.steady (h : Within lqEntries sqEntries u) (hs : Steady u u') :
    Within lqEntries sqEntries u' where
  lqCapacity := hs.lqCapacity.trans h.lqCapacity
  sqCapacity := hs.sqCapacity.trans h.sqCapacity
  loads := by
    have hl := hs.loads
    have hl' := h.loads
    omega
  stores := by
    have hl := hs.stores
    have hl' := h.stores
    omega
  lqSize := hs.lqSize.trans h.lqSize
  sqSize := hs.sqSize.trans h.sqSize

/-- In a unit within its entries, a free slot besides the spare one is a free entry. -/
theorem free_entry {capacity entries size : ℕ} (hcap : capacity = entries + 1)
    (hsize : size ≤ entries) (hlt : entries + 1 < 2 ^ 32)
    (hfree : (((capacity : ℤ) - (size : ℤ)) % 2 ^ 32).toNat ≠ 1) : size + 1 ≤ entries := by
  subst hcap
  have hmod : (((entries + 1 : ℕ) : ℤ) - (size : ℤ)) % 2 ^ 32 = ((entries + 1 : ℕ) : ℤ) - size := by
    refine Int.emod_eq_of_lt ?_ ?_ <;> omega
  rw [hmod] at hfree
  omega

theorem Within.insertLoad (h : Within lqEntries sqEntries u) (hlt : lqEntries + 1 < 2 ^ 32)
    (hfree : u.numFreeLoadEntries ≠ 1) {q : InstSeqNum} (hok : u.insertLoad q = .ok u') :
    Within lqEntries sqEntries u' := by
  obtain ⟨w, hw, hcap, hsize, hloads, hsq, hstores⟩ := insertLoad_steady hok
  rw [LSQUnit.numFreeLoadEntries, h.loads] at hfree
  have hroom := free_entry h.lqCapacity h.lqSize hlt hfree
  have hstart : Within lqEntries sqEntries w :=
    { lqCapacity := hcap.trans h.lqCapacity
      sqCapacity := hsq ▸ h.sqCapacity
      loads := by rw [hloads, hsize, h.loads, Nat.cast_succ]
      stores := by rw [hstores, hsq, h.stores]
      lqSize := hsize ▸ hroom
      sqSize := hsq ▸ h.sqSize }
  exact hstart.steady hw

theorem Within.insertStore (h : Within lqEntries sqEntries u) (hlt : sqEntries + 1 < 2 ^ 32)
    (hfree : u.numFreeStoreEntries ≠ 1) {q : InstSeqNum} (hok : u.insertStore q = .ok u') :
    Within lqEntries sqEntries u' := by
  obtain ⟨hcap, hsize, hstores, hlq, hloads⟩ := insertStore_steady hok
  rw [LSQUnit.numFreeStoreEntries, h.stores] at hfree
  have hroom := free_entry h.sqCapacity h.sqSize hlt hfree
  exact
    { lqCapacity := hlq ▸ h.lqCapacity
      sqCapacity := hcap.trans h.sqCapacity
      loads := by rw [hloads, hlq, h.loads]
      stores := by rw [hstores, hsize, h.stores, Nat.cast_succ]
      lqSize := hlq ▸ h.lqSize
      sqSize := hsize ▸ hroom }

end

/-- **One action** on a unit that spares its last slot. -/
theorem Within.step {lqEntries sqEntries : ℕ} {s : LSQ n} {tid : Fin n} {a : Action}
    (hlq : lqEntries + 1 < 2 ^ 32) (hsq : sqEntries + 1 < 2 ^ 32)
    (h : Within lqEntries sqEntries (s.thread tid)) (ha : s.Spares (.unit tid a)) {m : Machine}
    (hstep : Machine.step ⟨s.thread tid, 0⟩ a = .ok m) : Within lqEntries sqEntries m.unit := by
  cases a with
  | insertLoad q i =>
    obtain ⟨u, hu, hm⟩ := bind_eq_ok.mp hstep
    cases hm
    exact (h.steady (steady_setInst _ q i)).insertLoad hlq ha hu
  | insertStore q i =>
    obtain ⟨u, hu, hm⟩ := bind_eq_ok.mp hstep
    cases hm
    exact (h.steady (steady_setInst _ q i)).insertStore hsq ha hu
  | executeLoad q acc =>
    obtain ⟨r, hr, hm⟩ := bind_eq_ok.mp hstep
    cases hm
    exact h.steady (steady_executeLoad hr)
  | executeStore q acc =>
    obtain ⟨r, hr, hm⟩ := bind_eq_ok.mp hstep
    cases hm
    exact h.steady (steady_executeStore hr)
  | update q i =>
    cases hstep
    exact h.steady (steady_setInst _ q _)
  | commitLoads y =>
    obtain ⟨u, hu, hm⟩ := bind_eq_ok.mp hstep
    cases hm
    obtain ⟨_, _, hu⟩ := bind_eq_ok.mp hu
    exact h.steady (steady_commitLoadsLoop hu)
  | commitStores y =>
    obtain ⟨u, hu, hm⟩ := bind_eq_ok.mp hstep
    cases hm
    obtain ⟨_, _, hu⟩ := bind_eq_ok.mp hu
    exact h.steady (steady_commitStoresLoop hu)
  | completeStore store_idx =>
    obtain ⟨u, hu, hm⟩ := bind_eq_ok.mp hstep
    cases hm
    exact h.steady (steady_completeStore hu)
  | storePostSend =>
    obtain ⟨u, hu, hm⟩ := bind_eq_ok.mp hstep
    cases hm
    exact h.steady (steady_storePostSend hu)
  | squash q =>
    obtain ⟨u, hu, hm⟩ := bind_eq_ok.mp hstep
    cases hm
    have hmarked : Steady (s.thread tid) ((s.thread tid).markSquashed q) :=
      ⟨rfl, rfl, rfl, rfl, le_rfl, le_rfl⟩
    exact h.steady (hmarked.trans (steady_squash hu))
  | getMemDepViolator =>
    cases hstep
    exact h.steady ⟨rfl, rfl, rfl, rfl, le_rfl, le_rfl⟩

/-- The configured entries of a thread, for one of the two queues. -/
def perThread (n : ℕ) (pol : SMTQueuePolicy) (entries smtLSQThreshold : ℕ) : ℕ :=
  maxLSQAllocation pol entries n smtLSQThreshold

/-- **The queues keep within the configured entries** in every run that inserts no instruction when
one slot of its queue is free. -/
theorem capacity_kept {pol : SMTQueuePolicy} {LQEntries SQEntries smtLSQThreshold : ℕ}
    {depCheckShift : ℕ} {checkLoads : Bool} {s₀ s : LSQ n} {as : List (LSQAction n)}
    (h₀ : LSQ.new n pol LQEntries SQEntries smtLSQThreshold depCheckShift checkLoads = some s₀)
    (hlq : perThread n pol LQEntries smtLSQThreshold + 1 < 2 ^ 32)
    (hsq : perThread n pol SQEntries smtLSQThreshold + 1 < 2 ^ 32)
    (ha : Admitted LSQ.Spares LSQ.step s₀ as) (hrun : run LSQ.step s₀ as = .ok s) (tid : Fin n) :
    (s.thread tid).loads = (s.thread tid).loadQueue.size ∧
      (s.thread tid).stores = (s.thread tid).storeQueue.size ∧
      (s.thread tid).loadQueue.size ≤ perThread n pol LQEntries smtLSQThreshold ∧
      (s.thread tid).storeQueue.size ≤ perThread n pol SQEntries smtLSQThreshold := by
  have hstart : ∀ tid, Within (perThread n pol LQEntries smtLSQThreshold)
      (perThread n pol SQEntries smtLSQThreshold) (s₀.thread tid) := by
    intro tid
    rw [LSQ.new] at h₀
    split at h₀
    · cases h₀
    · split at h₀
      · cases h₀
      · cases h₀
        exact ⟨rfl, rfl, rfl, rfl, Nat.zero_le _, Nat.zero_le _⟩
  have hall := run_invariant
    (P := fun s : LSQ n => ∀ tid, Within (perThread n pol LQEntries smtLSQThreshold)
      (perThread n pol SQEntries smtLSQThreshold) (s.thread tid))
    (fun s a _ hs ha hstep u => by
      cases a with
      | unit v a =>
          obtain ⟨m, hm, hstep⟩ := bind_eq_ok.mp hstep
          cases hstep
          dsimp only
          by_cases hu : u = v
          · subst hu
            rw [Function.update_self]
            exact (hs u).step hlq hsq ha hm
          · rw [Function.update_of_ne hu]
            exact hs u
      | setActiveThreads active =>
          cases hstep
          exact hs u) hstart ha hrun
  have h := hall tid
  exact ⟨h.loads, h.stores, h.lqSize, h.sqSize⟩

/-- One thread with one entry in each queue, for examples. -/
def oneEntry : LSQ 1 := ⟨.Partitioned, [], fun _ => .new 1 1 0 false⟩

def insertLoad (q : InstSeqNum) : LSQAction 1 := .unit (.last 0) (.insertLoad q { isLoad := true })

instance (s : LSQ n) : DecidablePred s.Spares
  | .unit _ (.insertLoad _ _) | .unit _ (.insertStore _ _) => inferInstanceAs (Decidable (_ ≠ 1))
  | .unit _ (.executeLoad _ _) | .unit _ (.executeStore _ _) | .unit _ (.update _ _)
  | .unit _ (.commitLoads _) | .unit _ (.commitStores _) | .unit _ (.completeStore _)
  | .unit _ .storePostSend | .unit _ (.squash _) | .unit _ .getMemDepViolator
  | .setActiveThreads _ => inferInstanceAs (Decidable True)

/-- A load is inserted, squashed, and another one inserted. -/
theorem capacity_kept_squashed :
    ∃ s, run LSQ.step oneEntry [insertLoad 1, .unit 0 (.squash 0), insertLoad 2] = .ok s ∧
      ((s.thread 0).loads = (s.thread 0).loadQueue.size ∧
        (s.thread 0).stores = (s.thread 0).storeQueue.size ∧
        (s.thread 0).loadQueue.size ≤ perThread 1 .Partitioned 1 0 ∧
        (s.thread 0).storeQueue.size ≤ perThread 1 .Partitioned 1 0) := by
  obtain ⟨s, hs, -⟩ : ∃ s, run LSQ.step oneEntry
      [insertLoad 1, .unit 0 (.squash 0), insertLoad 2] = .ok s ∧ (s.thread 0).loads = 1 := by
    decide +kernel
  have hnew : LSQ.new 1 .Partitioned 1 1 0 0 false = some oneEntry := rfl
  exact ⟨s, hs, capacity_kept hnew (by decide) (by decide) (by decide +kernel) hs 0⟩

/-- Two loads are admitted to a queue of one entry. -/
theorem spare_slot_taken :
    LSQ.new 1 .Partitioned 1 1 0 0 false = some oneEntry ∧
      Admitted LSQ.Admits LSQ.step oneEntry [insertLoad 1, insertLoad 2] ∧
      ∃ s, run LSQ.step oneEntry [insertLoad 1, insertLoad 2] = .ok s ∧
        perThread 1 .Partitioned 1 0 < (s.thread 0).loadQueue.size := by
  refine ⟨rfl, ⟨⟨by decide, 1, by decide⟩, fun t ht => ⟨?_, fun _ _ => trivial⟩⟩,
    by decide +kernel⟩
  obtain ⟨t', ht', hfree, hfull⟩ : ∃ t', LSQ.step oneEntry (insertLoad 1) = .ok t' ∧
      (0 < (t'.thread 0).numFreeLoadEntries ∧ t'.lqFullOf 0 1 = some false) := by
    decide +kernel
  cases ht'.symm.trans ht
  exact ⟨hfree, 1, hfull⟩

end Gem5.Lsq
