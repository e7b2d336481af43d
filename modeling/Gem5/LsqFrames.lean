/-
# What an execution leaves of the queues

An execution of a load or a store changes the data of the queue entries, the instructions and the
record of the stall, and nothing that the queues are kept in order by: the ends of the queues, the
instructions of the entries, which stores may write back, were sent or are completed, the counters,
and the places that the instructions know.  `Framed` says so, the record of the stall included; a
load that is held has its own lemma.
-/
import Gem5.LsqAccess
import Gem5.QueueEntries

open Runs

namespace Gem5.Lsq

/-! ## Frames -/

/-- What a store entry says about the progress of its store. -/
structure Status where
  inst : Option InstSeqNum
  valid : Bool
  canWB : Bool
  committed : Bool
  completed : Bool
  deriving DecidableEq

def SQEntry.status (x : SQEntry) : Status := ⟨x.inst, x.valid, x.canWB, x.committed, x.completed⟩

/-- What an instruction knows about its place in the queues. -/
structure KeepsSlots (i i' : DynInst) : Prop where
  isLoad : i'.isLoad = i.isLoad
  sqIdx : i'.sqIdx = i.sqIdx
  lqIdx : i'.lqIdx = i.lqIdx
  sqIt : i'.sqIt = i.sqIt

theorem KeepsSlots.refl (i : DynInst) : KeepsSlots i i := ⟨rfl, rfl, rfl, rfl⟩

theorem KeepsSlots.trans {i j k : DynInst} (h : KeepsSlots i j) (h' : KeepsSlots j k) :
    KeepsSlots i k :=
  ⟨h'.isLoad.trans h.isLoad, h'.sqIdx.trans h.sqIdx, h'.lqIdx.trans h.lqIdx,
    h'.sqIt.trans h.sqIt⟩

/-- The ends of a queue and what it shows of its entries. -/
structure SameQueue {α β : Type} (view : α → β) (q q' : CircularQueue α) : Prop where
  capacity : q'.capacity = q.capacity
  head : q'.head = q.head
  size : q'.size = q.size
  get : ∀ i, view (q'.get i) = view (q.get i)

section SameQueue

variable {α β : Type} {view : α → β} {q q' q'' : CircularQueue α}

theorem SameQueue.refl (q : CircularQueue α) : SameQueue view q q := ⟨rfl, rfl, rfl, fun _ => rfl⟩

theorem SameQueue.trans (h : SameQueue view q q') (h' : SameQueue view q' q'') :
    SameQueue view q q'' :=
  ⟨h'.capacity.trans h.capacity, h'.head.trans h.head, h'.size.trans h.size,
    fun i => (h'.get i).trans (h.get i)⟩

/-- Writing an entry that shows the same. -/
theorem sameQueue_set (q : CircularQueue α) (i : ℕ) {x : α} (hx : view x = view (q.get i)) :
    SameQueue view q (q.set i x) := by
  refine ⟨rfl, rfl, rfl, fun j => ?_⟩
  rcases CircularQueue.get_set_cases q i j x with h | ⟨hslot, h⟩
  · rw [h]
  · rw [h, hx]
    unfold CircularQueue.get
    rw [hslot]

theorem SameQueue.valid (h : SameQueue view q q') (i : ℕ) : q'.IsValidIdx i ↔ q.IsValidIdx i := by
  unfold CircularQueue.IsValidIdx
  rw [h.head, h.size]

theorem SameQueue.fits (h : SameQueue view q q') (hq : q.Fits) : q'.Fits :=
  ⟨by rw [h.size, h.capacity]; exact hq.size_le, by rw [h.head]; exact hq.head_pos⟩

theorem SameQueue.entries (h : SameQueue view q q') :
    q'.entries.map view = q.entries.map view :=
  CircularQueue.map_entries_congr h.head h.size fun i _ => h.get i

end SameQueue

/-- The parts of the unit that an execution keeps. -/
structure Framed (u u' : LSQUnit) : Prop where
  loadQueue : SameQueue LSQEntry.inst u.loadQueue u'.loadQueue
  storeQueue : SameQueue SQEntry.status u.storeQueue u'.storeQueue
  loads : u'.loads = u.loads
  stores : u'.stores = u.stores
  storesToWB : u'.storesToWB = u.storesToWB
  storeWBIt : u'.storeWBIt = u.storeWBIt
  stalled : u'.stalled = u.stalled
  stallingStoreIsn : u'.stallingStoreIsn = u.stallingStoreIsn
  stallingLoadIdx : u'.stallingLoadIdx = u.stallingLoadIdx
  insts : ∀ q, KeepsSlots (u.insts q) (u'.insts q)

theorem Framed.refl (u : LSQUnit) : Framed u u :=
  ⟨.refl _, .refl _, rfl, rfl, rfl, rfl, rfl, rfl, rfl, fun _ => .refl _⟩

theorem Framed.trans {u v w : LSQUnit} (h : Framed u v) (h' : Framed v w) : Framed u w where
  loadQueue := h.loadQueue.trans h'.loadQueue
  storeQueue := h.storeQueue.trans h'.storeQueue
  loads := h'.loads.trans h.loads
  stores := h'.stores.trans h.stores
  storesToWB := h'.storesToWB.trans h.storesToWB
  storeWBIt := h'.storeWBIt.trans h.storeWBIt
  stalled := h'.stalled.trans h.stalled
  stallingStoreIsn := h'.stallingStoreIsn.trans h.stallingStoreIsn
  stallingLoadIdx := h'.stallingLoadIdx.trans h.stallingLoadIdx
  insts q := (h.insts q).trans (h'.insts q)

section

variable {u u' : LSQUnit}

variable {q inst : InstSeqNum} {req : LSQRequest} {acc : Access}

theorem keepsSlots_setInst {i : DynInst} (h : KeepsSlots (u.insts q) i) (p : InstSeqNum) :
    KeepsSlots (u.insts p) ((u.setInst q i).insts p) := by
  by_cases hp : p = q
  · subst hp
    rw [LSQUnit.insts_setInst]
    exact h
  · rw [LSQUnit.insts_setInst_of_ne _ _ hp]
    exact .refl _

theorem framed_setInst {i : DynInst} (h : KeepsSlots (u.insts q) i) :
    Framed u (u.setInst q i) :=
  ⟨.refl _, .refl _, rfl, rfl, rfl, rfl, rfl, rfl, rfl, keepsSlots_setInst h⟩

theorem framed_setRequest (load_idx : ℕ) (r : Option LSQRequest) :
    Framed u (u.setRequest load_idx r) :=
  ⟨sameQueue_set _ _ rfl, .refl _, rfl, rfl, rfl, rfl, rfl, rfl, rfl, fun _ => .refl _⟩

theorem framed_write {data : ℕ → Byte} {store_idx : ℕ} (h : u.write req data store_idx = .ok u') :
    Framed u u' := by
  unfold LSQUnit.write at h
  obtain ⟨_, _, h⟩ := bind_eq_ok.mp h
  obtain ⟨_, _, h⟩ := bind_eq_ok.mp h
  obtain ⟨_, _, h⟩ := bind_eq_ok.mp h
  cases h
  exact ⟨.refl _, sameQueue_set _ _ rfl, rfl, rfl, rfl, rfl, rfl, rfl, rfl, fun _ => .refl _⟩

theorem framed_checkViolationsLoop {k loadIt : ℕ} {r : ExecFault × LSQUnit}
    (h : u.checkViolationsLoop inst k loadIt = .ok r) : Framed u r.2 := by
  induction k generalizing loadIt u with
  | zero =>
    cases h
    exact .refl _
  | succ k ih =>
    unfold LSQUnit.checkViolationsLoop at h
    split at h
    · cases h
    rename_i ld hld
    split at h
    · exact ih h
    split at h
    · split at h
      · split at h
        · cases h
          exact ⟨.refl _, .refl _, rfl, rfl, rfl, rfl, rfl, rfl, rfl, fun _ => .refl _⟩
        · exact (framed_setInst (by exact ⟨rfl, rfl, rfl, rfl⟩)).trans (ih h)
      · split at h
        · cases h
          exact .refl _
        · cases h
          exact ⟨.refl _, .refl _, rfl, rfl, rfl, rfl, rfl, rfl, rfl, fun _ => .refl _⟩
    · exact ih h

theorem framed_checkViolations {loadIt : ℕ} {r : ExecFault × LSQUnit}
    (h : u.checkViolations loadIt inst = .ok r) : Framed u r.2 := by
  unfold LSQUnit.checkViolations at h
  obtain ⟨_, _, h⟩ := bind_eq_ok.mp h
  exact framed_checkViolationsLoop h

/-! ## Reading -/

theorem framed_forward {main : Request} {j : ℕ} {r : ReadOutcome × LSQUnit}
    (h : u.forward req main q j = .ok r) :
    r.1 ≠ .held ∧ Framed u r.2 := by
  unfold LSQUnit.forward at h
  obtain ⟨_, _, h⟩ := bind_eq_ok.mp h
  obtain ⟨_, _, h⟩ := bind_eq_ok.mp h
  obtain ⟨_, _, h⟩ := bind_eq_ok.mp h
  obtain ⟨_, _, h⟩ := bind_eq_ok.mp h
  cases h
  exact ⟨by simp, framed_setInst (by exact ⟨rfl, rfl, rfl, rfl⟩)⟩

/-- The record of a stall. -/
def LSQUnit.recordStall (u : LSQUnit) (st : InstSeqNum) (load_idx : ℕ) : LSQUnit :=
  { u with stalled := true, stallingStoreIsn := st, stallingLoadIdx := load_idx }

/-- **A load that is held**: the store at `j` is not completed, and the stall on it is recorded
unless an older load is. -/
structure Holds (u : LSQUnit) (q : InstSeqNum) (load_idx j : ℕ) (u' : LSQUnit) : Prop where
  completed : (u.storeQueue.get j).completed = false
  record : (∃ st, (u.storeQueue.get j).inst = some st ∧ Framed (u.recordStall st load_idx) u' ∧
      (u.stalled = true → ∃ old, (u.loadQueue.get u.stallingLoadIdx).inst = some old ∧ q < old)) ∨
    (Framed u u' ∧ u.stalled = true ∧
      ∃ old, (u.loadQueue.get u.stallingLoadIdx).inst = some old ∧ old ≤ q)

theorem hold_spec {load_idx j : ℕ} {r : ReadOutcome × LSQUnit} (h : u.hold q load_idx j = .ok r) :
    r.1 = .held ∧ Holds u q load_idx j r.2 := by
  unfold LSQUnit.hold at h
  obtain ⟨_, hcompleted, h⟩ := bind_eq_ok.mp h
  obtain ⟨st, hst, h⟩ := bind_eq_ok.mp h
  obtain ⟨first, hfirst, h⟩ := bind_eq_ok.mp h
  cases h
  rw [require_eq_ok, Bool.not_eq_true'] at hcompleted
  rw [orFail_eq_ok] at hst
  refine ⟨rfl, hcompleted, ?_⟩
  unfold LSQUnit.stallsFirst at hfirst
  cases first with
  | true =>
    refine .inl ⟨st, hst, ?_, fun hstalled => ?_⟩
    · exact (framed_setInst (u := u.recordStall st load_idx)
        (by exact ⟨rfl, rfl, rfl, rfl⟩)).trans
        (framed_setRequest _ _)
    · rw [if_pos hstalled] at hfirst
      obtain ⟨old, hold, hlt⟩ := bind_eq_ok.mp hfirst
      exact ⟨old, orFail_eq_ok.mp hold, of_decide_eq_true (Except.ok.inj hlt)⟩
  | false =>
    refine .inr ⟨(framed_setInst (by exact ⟨rfl, rfl, rfl, rfl⟩)).trans
      (framed_setRequest _ _), ?_⟩
    by_cases hstalled : u.stalled = true
    · rw [if_pos hstalled] at hfirst
      obtain ⟨old, hold, hge⟩ := bind_eq_ok.mp hfirst
      exact ⟨hstalled, old, orFail_eq_ok.mp hold,
        not_lt.mp (of_decide_eq_false (Except.ok.inj hge))⟩
    · rw [if_neg hstalled] at hfirst
      cases hfirst

/-- The store that the search ends at is between the write-back pointer and the younger stores, and
older than the load. -/
theorem search_part {main : Request} {k it j : ℕ} (h : u.search q main k it = .ok (.part j)) :
    it - k ≤ j ∧ j < it ∧ ∀ st, (u.storeQueue.get j).inst = some st → st < q := by
  induction k generalizing it with
  | zero => cases h
  | succ k ih =>
    unfold LSQUnit.search at h
    obtain ⟨it', hit, h⟩ := bind_eq_ok.mp h
    obtain ⟨hpos, rfl⟩ : 0 < it ∧ it' = it - 1 := by
      rw [orFail_eq_ok] at hit
      unfold CircularQueue.prev at hit
      split at hit
      · have := Option.some.inj hit
        omega
      · cases hit
    obtain ⟨_, _, h⟩ := bind_eq_ok.mp h
    obtain ⟨st, hst, h⟩ := bind_eq_ok.mp h
    obtain ⟨_, hlt, h⟩ := bind_eq_ok.mp h
    obtain ⟨b, _, h⟩ := bind_eq_ok.mp h
    rw [require_eq_ok, decide_eq_true_eq] at hlt
    rw [orFail_eq_ok] at hst
    have hrest : u.search q main k (it - 1) = .ok (.part j) →
        it - (k + 1) ≤ j ∧ j < it ∧ ∀ st, (u.storeQueue.get j).inst = some st → st < q := by
      intro h'
      obtain ⟨h1, h2, h3⟩ := ih h'
      exact ⟨by omega, by omega, h3⟩
    cases b with
    | false => exact hrest h
    | true =>
      obtain ⟨_, _, h⟩ := bind_eq_ok.mp h
      obtain ⟨c, _, h⟩ := bind_eq_ok.mp h
      cases c with
      | FullAddrRangeCoverage => cases h
      | PartialAddrRangeCoverage =>
        cases h
        refine ⟨by omega, by omega, fun st' hst' => ?_⟩
        rw [hst] at hst'
        obtain rfl := Option.some.inj hst'
        exact hlt
      | NoAddrRangeCoverage => exact hrest h

/-- **What a read does**: it holds the load on an older store that was not written back, or leaves
the frame as it is. -/
def ReadSpec (u : LSQUnit) (load_idx : ℕ) (r : ReadOutcome × LSQUnit) : Prop :=
  (r.1 ≠ .held ∧ Framed u r.2) ∨
    (r.1 = .held ∧ ∃ v q j, Framed u v ∧ (u.loadQueue.get load_idx).inst = some q ∧
      u.storeWBIt ≤ j ∧ j < (u.insts q).sqIt ∧
      (∀ st, (u.storeQueue.get j).inst = some st → st < q) ∧ Holds v q load_idx j r.2)

theorem read_spec {load_idx : ℕ} {r : ReadOutcome × LSQUnit} (h : u.read req load_idx = .ok r) :
    ReadSpec u load_idx r := by
  unfold LSQUnit.read at h
  obtain ⟨q, hq, h⟩ := bind_eq_ok.mp h
  obtain ⟨main, _, h⟩ := bind_eq_ok.mp h
  obtain ⟨_, _, h⟩ := bind_eq_ok.mp h
  rw [orFail_eq_ok] at hq
  have hreq : Framed u (u.setRequest load_idx (some req)) := framed_setRequest _ _
  split at h
  · cases h
    exact .inl ⟨by simp, (hreq.trans (framed_setInst (by exact ⟨rfl, rfl, rfl, rfl⟩))).trans
      (framed_setRequest _ _)⟩
  split at h
  · obtain ⟨_, _, h⟩ := bind_eq_ok.mp h
    obtain ⟨_, _, h⟩ := bind_eq_ok.mp h
    cases h
    exact .inl ⟨by simp, hreq.trans (framed_setInst (by exact ⟨rfl, rfl, rfl, rfl⟩))⟩
  split at h
  · cases h
    exact .inl ⟨by simp, hreq.trans (framed_setInst (by exact ⟨rfl, rfl, rfl, rfl⟩))⟩
  unfold LSQUnit.searchAndAccess at h
  obtain ⟨_, hwb, h⟩ := bind_eq_ok.mp h
  obtain ⟨found, hfound, h⟩ := bind_eq_ok.mp h
  rw [require_eq_ok, decide_eq_true_eq] at hwb
  cases found with
  | full j =>
    obtain ⟨hne, hframed⟩ := framed_forward h
    exact .inl ⟨hne, hreq.trans hframed⟩
  | part j =>
    obtain ⟨hheld, hholds⟩ := hold_spec h
    obtain ⟨hlow, hhigh, hold⟩ := search_part hfound
    have hlow' : u.storeWBIt ≤ j := by
      have hwb' : u.storeWBIt ≤ (u.insts q).sqIt := hwb
      have hlow' : (u.insts q).sqIt -
        (if (u.insts q).isDataPrefetch then 0 else (u.insts q).sqIt - u.storeWBIt) ≤ j := hlow
      have hhigh' : j < (u.insts q).sqIt := hhigh
      split at hlow' <;> omega
    exact .inr ⟨hheld, _, q, j, hreq, hq, hlow', hhigh, hold, hholds⟩
  | none =>
    cases h
    exact .inl ⟨by simp, hreq.trans (framed_setInst (by exact ⟨rfl, rfl, rfl, rfl⟩))⟩

/-! ## Executions -/

/-- The unit in which the access of an execution reads or writes: the instruction has its
address. -/
def LSQUnit.addressed (u : LSQUnit) (inst : InstSeqNum) (acc : Access) (p : Push) : LSQUnit :=
  let u := u.setInst inst { u.insts inst with strictlyOrdered := acc.strictlyOrdered }
  u.setInst inst { u.insts inst with
    effAddr := p.req.request.vaddr
    effSize := p.size
    effAddrValid := true }

theorem framed_addressed (inst : InstSeqNum) (acc : Access) (p : Push) :
    Framed u (u.addressed inst acc p) := by
  unfold LSQUnit.addressed
  exact (framed_setInst (by exact ⟨rfl, rfl, rfl, rfl⟩)).trans
    (framed_setInst (by exact ⟨rfl, rfl, rfl, rfl⟩))

/-- What the access of a load does: nothing to the frame, or a read. -/
theorem initiateAcc_load (hload : (u.insts inst).isLoad = true)
    (h : u.initiateAcc inst acc = .ok u') :
    (acc.push = none ∧ Framed u u') ∨ ∃ p out, acc.push = some p ∧
      (u.addressed inst acc p).read p.req (u.insts inst).lqIdx = .ok (out, u') := by
  unfold LSQUnit.initiateAcc at h
  dsimp only at h
  split at h
  · rename_i hpush
    cases h
    exact .inl ⟨hpush, framed_setInst (by exact ⟨rfl, rfl, rfl, rfl⟩)⟩
  · rename_i p hpush
    have hslots := (framed_addressed (u := u) inst acc p).insts inst
    refine .inr ⟨p, ?_⟩
    unfold LSQUnit.pushRequest at h
    change (if ((u.addressed inst acc p).insts inst).isLoad then do
        let r ← (u.addressed inst acc p).read p.req ((u.addressed inst acc p).insts inst).lqIdx
        return r.2
      else _) = _ at h
    rw [if_pos (by rw [hslots.isLoad]; exact hload), hslots.lqIdx] at h
    obtain ⟨r, hr, h⟩ := bind_eq_ok.mp h
    cases h
    exact ⟨r.1, hpush, hr⟩

/-- The access of a store keeps the frame. -/
theorem initiateAcc_store (hstore : (u.insts inst).isLoad = false)
    (h : u.initiateAcc inst acc = .ok u') :
    Framed u u' := by
  unfold LSQUnit.initiateAcc at h
  dsimp only at h
  split at h
  · cases h
    exact framed_setInst (by exact ⟨rfl, rfl, rfl, rfl⟩)
  · rename_i p hpush
    have hframed := framed_addressed (u := u) inst acc p
    unfold LSQUnit.pushRequest at h
    change (if ((u.addressed inst acc p).insts inst).isLoad then _
      else (u.addressed inst acc p).write p.req p.data _) = _ at h
    rw [if_neg (by rw [(hframed.insts inst).isLoad, hstore]; exact Bool.false_ne_true)] at h
    exact hframed.trans (framed_write h)

/-- **What the execution of a load does**: its access, and nothing else to the frame. -/
theorem executeLoad_spec {r : ExecFault × LSQUnit} (h : u.executeLoad inst acc = .ok r) :
    ∃ v, u.initiateAcc inst acc = .ok v ∧ Framed v r.2 := by
  unfold LSQUnit.executeLoad at h
  obtain ⟨_, _, h⟩ := bind_eq_ok.mp h
  obtain ⟨v, hv, h⟩ := bind_eq_ok.mp h
  refine ⟨v, hv, ?_⟩
  have hexec : Framed v (v.setInst inst { v.insts inst with executed := true }) :=
    framed_setInst (by exact ⟨rfl, rfl, rfl, rfl⟩)
  split at h
  · obtain ⟨_, _, h⟩ := bind_eq_ok.mp h
    cases h
    exact hexec
  split at h
  · cases h
    exact .refl _
  split at h
  · cases h
    exact .refl _
  split at h
  · cases h
    dsimp only
    split
    · exact hexec
    · exact .refl _
  split at h
  · exact framed_checkViolations h
  · cases h
    exact .refl _

/-- A store that may write back on its own. -/
def LSQUnit.allowWB (u : LSQUnit) (store_idx : ℕ) : LSQUnit :=
  { u with
    storeQueue := u.storeQueue.set store_idx { u.storeQueue.get store_idx with canWB := true }
    storesToWB := u.storesToWB + 1 }

/-- **What the execution of a store does**: nothing to the frame, except that a store conditional or
an atomic may write back. -/
theorem executeStore_spec {r : ExecFault × LSQUnit} (hstore : (u.insts inst).isLoad = false)
    (h : u.executeStore inst acc = .ok r) :
    Framed u r.2 ∨ ∃ v, Framed u v ∧ Framed (v.allowWB (u.insts inst).sqIdx) r.2 := by
  unfold LSQUnit.executeStore at h
  obtain ⟨_, _, h⟩ := bind_eq_ok.mp h
  obtain ⟨_, _, h⟩ := bind_eq_ok.mp h
  obtain ⟨v, hv, h⟩ := bind_eq_ok.mp h
  have h1 := initiateAcc_store hstore hv
  split at h
  · cases h
    exact .inl h1
  split at h
  · cases h
    exact .inl h1
  split at h
  · cases h
    exact .inl h1
  obtain ⟨_, _, h⟩ := bind_eq_ok.mp h
  split at h
  · exact .inr ⟨v, h1, framed_checkViolations h⟩
  · exact .inl (h1.trans (framed_checkViolations h))

end

end Gem5.Lsq
