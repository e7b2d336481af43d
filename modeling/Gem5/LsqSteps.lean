/-
# What the operations of the load/store unit change

Most operations leave the load queue as it is, at most shorten the store queue,
and do not touch the queue positions recorded in the instructions.  `Quiet` says
so once, as a relation between the states before and after; it is reflexive and
transitive, so a composed operation is quiet because its parts are.  The four
operations that move the ends of the queues have their own lemmas in
`MemOrder.lean`.
-/
import Gem5.Runs
import Gem5.LsqAccess

open Runs

namespace Gem5.Lsq

/-! ## Quiet changes -/

/-- The state `u'` has the same load queue as `u`, a store queue that at most lost
entries, and instructions at the same queue positions; an instruction that was
squashed stays squashed. -/
structure Quiet (u u' : LSQUnit) : Prop where
  depCheckShift : u'.depCheckShift = u.depCheckShift
  lqHead : u'.loadQueue.head = u.loadQueue.head
  lqSize : u'.loadQueue.size = u.loadQueue.size
  lqCapacity : u'.loadQueue.capacity = u.loadQueue.capacity
  lqInst : ∀ i, (u'.loadQueue.get i).inst = (u.loadQueue.get i).inst
  sqFits : u'.storeQueue.Fits
  sqInst : ∀ j, u'.storeQueue.IsValidIdx j → u.storeQueue.IsValidIdx j ∧
    (u'.storeQueue.get j).inst = (u.storeQueue.get j).inst
  isLoad : ∀ q, (u'.insts q).isLoad = (u.insts q).isLoad
  lqIt : ∀ q, (u'.insts q).lqIt = (u.insts q).lqIt
  squashed : ∀ q, (u.insts q).squashed = true → (u'.insts q).squashed = true

variable {u u' : LSQUnit} {inst : InstSeqNum} {r : ExecFault × LSQUnit}

theorem Quiet.refl (h : u.storeQueue.Fits) : Quiet u u :=
  ⟨rfl, rfl, rfl, rfl, fun _ => rfl, h, fun _ hj => ⟨hj, rfl⟩, fun _ => rfl, fun _ => rfl,
    fun _ h => h⟩

theorem Quiet.trans {v w : LSQUnit} (h : Quiet u v) (h' : Quiet v w) : Quiet u w where
  depCheckShift := h'.depCheckShift.trans h.depCheckShift
  lqHead := h'.lqHead.trans h.lqHead
  lqSize := h'.lqSize.trans h.lqSize
  lqCapacity := h'.lqCapacity.trans h.lqCapacity
  lqInst i := (h'.lqInst i).trans (h.lqInst i)
  sqFits := h'.sqFits
  sqInst j hj := by
    obtain ⟨hj', he'⟩ := h'.sqInst j hj
    obtain ⟨hj'', he⟩ := h.sqInst j hj'
    exact ⟨hj'', he'.trans he⟩
  isLoad q := (h'.isLoad q).trans (h.isLoad q)
  lqIt q := (h'.lqIt q).trans (h.lqIt q)
  squashed q hq := h'.squashed q (h.squashed q hq)

/-- The instruction `i'` is `i` at the same queue position. -/
structure KeepsPlace (i i' : DynInst) : Prop where
  isLoad : i'.isLoad = i.isLoad
  lqIt : i'.lqIt = i.lqIt
  squashed : i.squashed = true → i'.squashed = true

/-- Overwriting an entry by one for the same instruction keeps all instructions. -/
theorem inst_set {α : Type*} (inst : α → Option InstSeqNum) (q : CircularQueue α) (i : ℕ) (e : α)
    (h : inst e = inst (q.get i)) (j : ℕ) : inst ((q.set i e).get j) = inst (q.get j) := by
  rcases CircularQueue.get_set_cases q i j e with h1 | ⟨hslot, h1⟩
  · rw [h1]
  · rw [h1, h]
    unfold CircularQueue.get
    rw [hslot]

section

variable {u : LSQUnit} (hf : u.storeQueue.Fits)
include hf

variable {q : InstSeqNum} {u' : LSQUnit} {r : ReadOutcome × LSQUnit} {req : LSQRequest}

/-- Changing an instruction, its queue position apart, is quiet. -/
theorem quiet_setInst {i : DynInst} (h : KeepsPlace (u.insts q) i) :
    Quiet u (u.setInst q i) := by
  have hinst : ∀ q', (u.setInst q i).insts q' = if q' = q then i else u.insts q' := by
    intro q'
    by_cases h : q' = q
    · subst h
      rw [LSQUnit.insts_setInst, if_pos rfl]
    · rw [LSQUnit.insts_setInst_of_ne u i h, if_neg h]
  refine ⟨rfl, rfl, rfl, rfl, fun _ => rfl, hf, fun _ hj => ⟨hj, rfl⟩, ?_, ?_, ?_⟩
  · intro q'
    rw [hinst]
    split
    · rename_i hq; rw [hq, h.isLoad]
    · rfl
  · intro q'
    rw [hinst]
    split
    · rename_i hq; rw [hq, h.lqIt]
    · rfl
  · intro q' hq'
    rw [hinst]
    split
    · rename_i hq; exact h.squashed (hq ▸ hq')
    · exact hq'

theorem quiet_setRequest (load_idx : ℕ) (r : Option LSQRequest) :
    Quiet u (u.setRequest load_idx r) :=
  ⟨rfl, rfl, rfl, rfl, inst_set LSQEntry.inst u.loadQueue load_idx _ rfl, hf,
    fun _ hj => ⟨hj, rfl⟩, fun _ => rfl, fun _ => rfl, fun _ h => h⟩

/-- Overwriting a store entry by one for the same instruction is quiet. -/
theorem quiet_setStore (j : ℕ) (x : SQEntry) (h : x.inst = (u.storeQueue.get j).inst) (n : ℤ) :
    Quiet u { u with storeQueue := u.storeQueue.set j x, storesToWB := n } :=
  ⟨rfl, rfl, rfl, rfl, fun _ => rfl, CircularQueue.fits_set hf j x,
    fun i hi => ⟨hi, inst_set (fun y : SQEntry => y.inst) u.storeQueue j x h i⟩,
    fun _ => rfl, fun _ => rfl, fun _ h => h⟩

/-- A change outside the queues and the instructions is quiet. -/
theorem quiet_of_same (h1 : u'.depCheckShift = u.depCheckShift) (h2 : u'.loadQueue = u.loadQueue)
    (h3 : u'.storeQueue = u.storeQueue) (h4 : u'.insts = u.insts) : Quiet u u' := by
  refine ⟨h1, by rw [h2], by rw [h2], by rw [h2], fun i => by rw [h2], h3 ▸ hf, fun j hj => ?_,
    fun q => by rw [h4], fun q => by rw [h4], fun q hq => by rw [h4]; exact hq⟩
  rw [h3] at hj ⊢
  exact ⟨hj, rfl⟩

/-! ## Accesses -/

theorem quiet_forward {main : Request} {j : ℕ} (h : u.forward req main q j = .ok r) :
    Quiet u r.2 := by
  unfold LSQUnit.forward at h
  obtain ⟨_, _, h⟩ := bind_eq_ok.mp h
  obtain ⟨_, _, h⟩ := bind_eq_ok.mp h
  obtain ⟨_, _, h⟩ := bind_eq_ok.mp h
  obtain ⟨_, _, h⟩ := bind_eq_ok.mp h
  cases h
  exact quiet_setInst hf (by exact ⟨rfl, rfl, id⟩)

theorem quiet_hold {load_idx j : ℕ} (h : u.hold q load_idx j = .ok r) : Quiet u r.2 := by
  unfold LSQUnit.hold at h
  obtain ⟨_, _, h⟩ := bind_eq_ok.mp h
  obtain ⟨st, _, h⟩ := bind_eq_ok.mp h
  obtain ⟨first, _, h⟩ := bind_eq_ok.mp h
  cases h
  -- the stall record, the instruction, the request
  have h1 : Quiet u (if first then
      { u with stalled := true, stallingStoreIsn := st, stallingLoadIdx := load_idx }
      else u : LSQUnit) := by
    cases first <;> exact quiet_of_same hf rfl rfl rfl rfl
  have h2 := h1.trans (quiet_setInst h1.sqFits (q := q)
    (i := { (_ : LSQUnit).insts q with issued := false, effAddrValid := false }) (by exact ⟨rfl, rfl, id⟩))
  exact h2.trans (quiet_setRequest h2.sqFits load_idx none)

theorem quiet_searchAndAccess {main : Request} {load_idx : ℕ}
    (h : u.searchAndAccess req main q load_idx = .ok r) : Quiet u r.2 := by
  unfold LSQUnit.searchAndAccess at h
  obtain ⟨_, _, h⟩ := bind_eq_ok.mp h
  obtain ⟨found, _, h⟩ := bind_eq_ok.mp h
  cases found with
  | full j => exact quiet_forward hf h
  | part j => exact quiet_hold hf h
  | none =>
    cases h
    exact quiet_setInst hf (by exact ⟨rfl, rfl, id⟩)

theorem quiet_read {load_idx : ℕ} (h : u.read req load_idx = .ok r) : Quiet u r.2 := by
  have h1 := quiet_setRequest hf load_idx (some req)
  unfold LSQUnit.read at h
  obtain ⟨q, _, h⟩ := bind_eq_ok.mp h
  obtain ⟨main, _, h⟩ := bind_eq_ok.mp h
  obtain ⟨_, _, h⟩ := bind_eq_ok.mp h
  split at h
  · cases h
    have h2 := h1.trans (quiet_setInst h1.sqFits (q := q)
      (i := { (_ : LSQUnit).insts q with issued := false, effAddrValid := false }) (by exact ⟨rfl, rfl, id⟩))
    exact h2.trans (quiet_setRequest h2.sqFits load_idx none)
  split at h
  · obtain ⟨_, _, h⟩ := bind_eq_ok.mp h
    obtain ⟨_, _, h⟩ := bind_eq_ok.mp h
    cases h
    exact h1.trans (quiet_setInst h1.sqFits (by exact ⟨rfl, rfl, id⟩))
  split at h
  · cases h
    exact h1.trans (quiet_setInst h1.sqFits (by exact ⟨rfl, rfl, id⟩))
  · exact h1.trans (quiet_searchAndAccess h1.sqFits h)

theorem quiet_write {data : ℕ → Byte} {store_idx : ℕ} (h : u.write req data store_idx = .ok u') :
    Quiet u u' := by
  unfold LSQUnit.write at h
  obtain ⟨_, _, h⟩ := bind_eq_ok.mp h
  obtain ⟨_, _, h⟩ := bind_eq_ok.mp h
  obtain ⟨_, _, h⟩ := bind_eq_ok.mp h
  cases h
  apply quiet_setStore hf
  rfl

theorem quiet_pushRequest {inst : InstSeqNum} {p : Push} (h : u.pushRequest inst p = .ok u') :
    Quiet u u' := by
  unfold LSQUnit.pushRequest at h
  have h1 := quiet_setInst hf (q := inst)
    (i := { u.insts inst with
      effAddr := p.req.request.vaddr, effSize := p.size, effAddrValid := true }) (by exact ⟨rfl, rfl, id⟩)
  dsimp only at h
  split at h
  · obtain ⟨r, hr, h⟩ := bind_eq_ok.mp h
    cases h
    exact h1.trans (quiet_read h1.sqFits hr)
  · exact h1.trans (quiet_write h1.sqFits h)

theorem quiet_initiateAcc {inst : InstSeqNum} {acc : Access} (h : u.initiateAcc inst acc = .ok u') :
    Quiet u u' := by
  have h1 : Quiet u (u.setInst inst { u.insts inst with strictlyOrdered := acc.strictlyOrdered }) :=
    quiet_setInst hf (by exact ⟨rfl, rfl, id⟩)
  unfold LSQUnit.initiateAcc at h
  dsimp only at h
  split at h
  · cases h
    exact h1
  · exact h1.trans (quiet_pushRequest h1.sqFits h)

end

theorem quiet_checkViolationsLoop {k loadIt : ℕ} (hf : u.storeQueue.Fits)
    (h : u.checkViolationsLoop inst k loadIt = .ok r) : Quiet u r.2 := by
  induction k generalizing loadIt u with
  | zero =>
    cases h
    exact Quiet.refl hf
  | succ k ih =>
    unfold LSQUnit.checkViolationsLoop at h
    split at h
    · cases h
    rename_i ld hld
    split at h
    · exact ih hf h
    split at h
    · split at h
      · split at h
        · cases h
          exact quiet_of_same hf rfl rfl rfl rfl
        · have h1 : Quiet u (u.setInst ld { u.insts ld with possibleLoadViolation := true }) :=
            quiet_setInst hf (by exact ⟨rfl, rfl, id⟩)
          exact h1.trans (ih h1.sqFits h)
      · split at h
        · cases h
          exact Quiet.refl hf
        · cases h
          exact quiet_of_same hf rfl rfl rfl rfl
    · exact ih hf h

theorem quiet_checkViolations {loadIt : ℕ} (hf : u.storeQueue.Fits)
    (h : u.checkViolations loadIt inst = .ok r) : Quiet u r.2 := by
  unfold LSQUnit.checkViolations at h
  obtain ⟨_, _, h⟩ := bind_eq_ok.mp h
  exact quiet_checkViolationsLoop hf h

theorem quiet_executeLoad {acc : Access} (hf : u.storeQueue.Fits)
    (h : u.executeLoad inst acc = .ok r) : Quiet u r.2 := by
  unfold LSQUnit.executeLoad at h
  obtain ⟨_, _, h⟩ := bind_eq_ok.mp h
  obtain ⟨v, hv, h⟩ := bind_eq_ok.mp h
  have h1 := quiet_initiateAcc hf hv
  have hexec : Quiet u (v.setInst inst { v.insts inst with executed := true }) :=
    h1.trans (quiet_setInst h1.sqFits (by exact ⟨rfl, rfl, id⟩))
  split at h
  · obtain ⟨_, _, h⟩ := bind_eq_ok.mp h
    cases h
    exact hexec
  split at h
  · cases h
    exact h1
  split at h
  · cases h
    exact h1
  split at h
  · cases h
    dsimp only
    split
    · exact hexec
    · exact h1
  split at h
  · exact h1.trans (quiet_checkViolations h1.sqFits h)
  · cases h
    exact h1

theorem quiet_executeStore {acc : Access} (hf : u.storeQueue.Fits)
    (h : u.executeStore inst acc = .ok r) : Quiet u r.2 := by
  unfold LSQUnit.executeStore at h
  obtain ⟨_, _, h⟩ := bind_eq_ok.mp h
  obtain ⟨_, _, h⟩ := bind_eq_ok.mp h
  obtain ⟨v, hv, h⟩ := bind_eq_ok.mp h
  have h1 := quiet_initiateAcc hf hv
  split at h
  · cases h
    exact h1
  split at h
  · cases h
    exact h1
  split at h
  · cases h
    exact h1
  obtain ⟨_, _, h⟩ := bind_eq_ok.mp h
  split at h
  · have h2 := h1.trans (quiet_setStore h1.sqFits (u.insts inst).sqIdx
      { v.storeQueue.get (u.insts inst).sqIdx with canWB := true } rfl (v.storesToWB + 1))
    exact h2.trans (quiet_checkViolations h2.sqFits h)
  · exact h1.trans (quiet_checkViolations h1.sqFits h)

/-! ## Commit and completion of stores -/

theorem quiet_commitStoresLoop {y : InstSeqNum} {k i : ℕ} (hf : u.storeQueue.Fits)
    (h : u.commitStoresLoop y k i = .ok u') : Quiet u u' := by
  induction k generalizing i u with
  | zero =>
    cases h
    exact Quiet.refl hf
  | succ k ih =>
    unfold LSQUnit.commitStoresLoop at h
    obtain ⟨_, _, h⟩ := bind_eq_ok.mp h
    split at h
    · exact ih hf h
    obtain ⟨q, _, h⟩ := bind_eq_ok.mp h
    split at h
    · cases h
      exact Quiet.refl hf
    · have h1 := quiet_setStore hf i { u.storeQueue.get i with canWB := true } rfl
        (u.storesToWB + 1)
      exact h1.trans (ih h1.sqFits h)

theorem quiet_commitStores {y : InstSeqNum} (hf : u.storeQueue.Fits) (h : u.commitStores y = .ok u')
    :
    Quiet u u' := by
  unfold LSQUnit.commitStores at h
  obtain ⟨_, _, h⟩ := bind_eq_ok.mp h
  exact quiet_commitStoresLoop hf h

/-- A store queue that only lost entries is a quiet change. -/
theorem quiet_shorten {sq : CircularQueue SQEntry} (n : ℤ) (hf : sq.Fits)
    (h : ∀ j, sq.IsValidIdx j → u.storeQueue.IsValidIdx j ∧
      (sq.get j).inst = (u.storeQueue.get j).inst) :
    Quiet u { u with storeQueue := sq, stores := n } :=
  ⟨rfl, rfl, rfl, rfl, fun _ => rfl, hf, h, fun _ => rfl, fun _ => rfl, fun _ h => h⟩

theorem quiet_popStore (hf : u.storeQueue.Fits) (h : u.popStore = .ok u') :
    Quiet u u' := by
  unfold LSQUnit.popStore at h
  obtain ⟨sq, hsq, h⟩ := bind_eq_ok.mp h
  cases h
  rw [orFail_eq_ok] at hsq
  obtain ⟨hsize, rfl⟩ := CircularQueue.popFront_eq_some hsq
  refine quiet_shorten _ (CircularQueue.fits_popFront (CircularQueue.fits_set hf _ _) hsq) ?_
  rintro j ⟨h1, h2⟩
  have h1' : u.storeQueue.head + 1 ≤ j := h1
  have h2' : j < u.storeQueue.head + 1 + (u.storeQueue.size - 1) := h2
  have hsize' : 1 ≤ u.storeQueue.size := hsize
  have hj : u.storeQueue.IsValidIdx j := ⟨by omega, by omega⟩
  refine ⟨hj, ?_⟩
  -- the cleared slot belongs to the popped index only
  have hget := CircularQueue.get_set_of_ne hf (i := u.storeQueue.head) ⟨le_refl _, by omega⟩ hj
    (by omega) u.storeQueue.front.clear
  exact congrArg (fun x : SQEntry => x.inst) hget

theorem quiet_popStores {k : ℕ} (hf : u.storeQueue.Fits) (h : u.popStores k = .ok u') :
    Quiet u u' := by
  induction k generalizing u with
  | zero => exact quiet_popStore hf h
  | succ k ih =>
    unfold LSQUnit.popStores at h
    obtain ⟨v, hv, h⟩ := bind_eq_ok.mp h
    have h1 := quiet_popStore hf hv
    split at h
    · exact h1.trans (ih h1.sqFits h)
    · cases h
      exact h1

theorem quiet_unstall (hf : u.storeQueue.Fits) (q : InstSeqNum) :
    Quiet u (u.unstall q) := by
  unfold LSQUnit.unstall
  split
  · exact quiet_of_same hf rfl rfl rfl rfl
  · exact Quiet.refl hf

theorem quiet_completeStore {store_idx : ℕ} (hf : u.storeQueue.Fits)
    (h : u.completeStore store_idx = .ok u') : Quiet u u' := by
  unfold LSQUnit.completeStore at h
  obtain ⟨_, _, h⟩ := bind_eq_ok.mp h
  obtain ⟨q, _, h⟩ := bind_eq_ok.mp h
  have h1 := quiet_setStore hf store_idx { u.storeQueue.get store_idx with completed := true } rfl
    (u.storesToWB - 1)
  obtain ⟨v, hv, h⟩ := bind_eq_ok.mp h
  have h2 : Quiet u v := by
    split at hv
    · exact h1.trans (quiet_popStores h1.sqFits hv)
    · cases hv
      exact h1
  cases h
  have h3 := h2.trans (quiet_unstall h2.sqFits q)
  exact h3.trans (quiet_setInst h3.sqFits (by exact ⟨rfl, rfl, id⟩))

theorem quiet_storePostSend (hf : u.storeQueue.Fits) (h : u.storePostSend = .ok u') :
    Quiet u u' := by
  unfold LSQUnit.storePostSend at h
  obtain ⟨q, _, h⟩ := bind_eq_ok.mp h
  cases h
  have h1 := quiet_unstall hf q
  have h2 : Quiet u (if ((u.unstall q).insts q).isStoreConditional then u.unstall q
      else (u.unstall q).setInst q { (u.unstall q).insts q with completed := true }) := by
    split
    · exact h1
    · exact h1.trans (quiet_setInst h1.sqFits (by exact ⟨rfl, rfl, id⟩))
  exact h2.trans (quiet_of_same h2.sqFits rfl rfl rfl rfl)

/-! ## Squashing stores -/

theorem quiet_squashStore {q : InstSeqNum} (hf : u.storeQueue.Fits) (h : u.squashStore q = .ok u') :
    Quiet u u' := by
  unfold LSQUnit.squashStore at h
  obtain ⟨_, _, h⟩ := bind_eq_ok.mp h
  obtain ⟨sq, hsq, h⟩ := bind_eq_ok.mp h
  cases h
  rw [orFail_eq_ok] at hsq
  obtain ⟨hsize, rfl⟩ := CircularQueue.popBack_eq_some hsq
  have h1 : Quiet u (u.setInst q { u.insts q with squashed := true }) :=
    quiet_setInst hf (by exact ⟨rfl, rfl, fun _ => rfl⟩)
  refine h1.trans (quiet_shorten _
    (CircularQueue.fits_popBack (CircularQueue.fits_set hf _ _) hsq) ?_)
  rintro j ⟨h2, h3⟩
  have h2' : u.storeQueue.head ≤ j := h2
  have h3' : j < u.storeQueue.head + (u.storeQueue.size - 1) := h3
  have hsize' : 1 ≤ u.storeQueue.size := hsize
  have hj : u.storeQueue.IsValidIdx j := ⟨by omega, by omega⟩
  refine ⟨hj, ?_⟩
  have hget := CircularQueue.get_set_of_ne hf (i := u.storeQueue.tail)
    ⟨by unfold CircularQueue.tail; omega, by unfold CircularQueue.tail; omega⟩ hj
    (by unfold CircularQueue.tail; omega) u.storeQueue.back.clear
  exact congrArg (fun x : SQEntry => x.inst) hget

theorem quiet_squashStores {n : InstSeqNum} {k : ℕ} (hf : u.storeQueue.Fits)
    (h : u.squashStores n k = .ok u') : Quiet u u' := by
  induction k generalizing u with
  | zero =>
    unfold LSQUnit.squashStores at h
    split at h
    · cases h
      exact Quiet.refl hf
    split at h
    · cases h
    split at h
    · split at h
      · cases h
        exact Quiet.refl hf
      · exact quiet_squashStore hf h
    · cases h
      exact Quiet.refl hf
  | succ k ih =>
    unfold LSQUnit.squashStores at h
    split at h
    · cases h
      exact Quiet.refl hf
    split at h
    · cases h
    split at h
    · split at h
      · cases h
        exact Quiet.refl hf
      · obtain ⟨v, hv, h⟩ := bind_eq_ok.mp h
        have h1 := quiet_squashStore hf hv
        exact h1.trans (ih h1.sqFits h)
    · cases h
      exact Quiet.refl hf

end Gem5.Lsq
