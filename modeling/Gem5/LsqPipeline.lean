/-
# The load/store unit with its write-back

`LSQUnit` together with the parts that decide when its stores are sent: the loop of
`writebackStores`, `writebackBlockedStore`, `storePostSend` and `completeStore`
(`cpu/o3/lsq_unit.cc`), and with the loads that `read` has handed to the memory dependence unit to
be replayed because an older store covers them in part (`instsToReplay`, `cpu/o3/mem_dep_unit.cc`).

The answers of the cache and of the instruction set to a round of the loop are the value `Round`.
The loop is taken round by round.
-/
import Gem5.LsqFrames
import Gem5.MemOrder

open Runs

namespace Gem5.Lsq

/-! ## Write-back -/

structure Pipeline where
  unit : LSQUnit
  needsTSO : Bool
  storeInFlight : Bool
  isStoreBlocked : Bool
  /-- the partially covered loads that wait to be replayed -/
  held : List InstSeqNum

/-- `replayMemInst`: every load that waits is replayed, not only the stalling one. -/
def Pipeline.replayMemInst (p : Pipeline) : Except Fail Pipeline := do
  let _ ← orFail .nullInst (p.unit.loadQueue.get p.unit.stallingLoadIdx).inst
  return { p with held := [] }

/-- What `storePostSend` and `completeStore` do besides `LSQUnit.unstall` for the store `q`. -/
def Pipeline.unstall (p : Pipeline) (q : InstSeqNum) : Except Fail Pipeline :=
  if p.unit.stalled && q = p.unit.stallingStoreIsn then p.replayMemInst else .ok p

/-- `completeStore` -/
def Pipeline.completeStore (p : Pipeline) (store_idx : ℕ) : Except Fail Pipeline := do
  let u ← p.unit.completeStore store_idx
  let store_inst ← orFail .nullInst (p.unit.storeQueue.get store_idx).inst
  let p ← p.unstall store_inst
  return { p with unit := u, storeInFlight := p.storeInFlight && !p.needsTSO }

/-- `storePostSend` -/
def Pipeline.storePostSend (p : Pipeline) : Except Fail Pipeline := do
  let u ← p.unit.storePostSend
  let store_inst ← orFail .nullInst (p.unit.storeQueue.get p.unit.storeWBIt).inst
  let p ← p.unstall store_inst
  return { p with unit := u, storeInFlight := p.storeInFlight || p.needsTSO }

/-- `sendPacketToCache` and what follows it; `isSent` when the cache took every packet. -/
def Pipeline.send (p : Pipeline) (isSent : Bool) : Except Fail Pipeline :=
  if isSent then { p with isStoreBlocked := false }.storePostSend
  else .ok { p with isStoreBlocked := true }

/-- `writebackBlockedStore`, called when a store is blocked. -/
def Pipeline.writebackBlockedStore (p : Pipeline) (isSent : Bool) : Except Fail Pipeline :=
  if p.isStoreBlocked then p.send isSent else .ok p

/-- The answers to one round of the loop of `writebackStores`. -/
structure Round where
  cachePortAvailable : Bool := true
  isRelease : Bool := false
  /-- `handleLockedWrite` succeeds -/
  lockedWrite : Bool := true
  isSent : Bool := true

/-- The condition of the loop of `writebackStores`, at the entry `x` of `storeWBIt`. -/
def Pipeline.mayWriteBack (p : Pipeline) (r : Round) (x : SQEntry) : Bool :=
  decide (0 < p.unit.storesToWB) && decide (p.unit.storeQueue.IsValidIdx p.unit.storeWBIt) &&
    x.valid && x.canWB && (!p.needsTSO || !p.storeInFlight) && r.cachePortAvailable

/-- The bytes that a store writes. -/
def SQEntry.written (x : SQEntry) (size : BitVec 32) : List Byte :=
  (List.range size.toNat).map fun k => if x.isAllZeros then 0 else x.data k

/-- The store at `storeWBIt` is handed to the memory system. -/
def LSQUnit.commitStore (u : LSQUnit) (q : InstSeqNum) (req : LSQRequest) : LSQUnit :=
  let x := u.storeQueue.get u.storeWBIt
  { u.setInst q { u.insts q with memData := some (x.written req.size) } with
    storeQueue := u.storeQueue.set u.storeWBIt { x with committed := true } }

/-- `storeWBIt++` -/
def Pipeline.advance (p : Pipeline) : Pipeline :=
  { p with unit := { p.unit with storeWBIt := p.unit.storeWBIt + 1 } }

/-- A store conditional that fails is completed at once. -/
def Pipeline.failStoreConditional (p : Pipeline) : Except Fail Pipeline := do
  let p ← p.completeStore p.unit.storeWBIt
  if !p.unit.storeQueue.empty then return p.advance
  else return { p with unit := { p.unit with storeWBIt := p.unit.storeQueue.endIdx } }

/-- The end of a round: the store `q` has been handed to the memory system. -/
def Pipeline.transmit (p : Pipeline) (r : Round) (q : InstSeqNum) (req : LSQRequest) :
    Except Fail Pipeline :=
  if (p.unit.insts q).isStoreConditional && !r.lockedWrite then p.failStoreConditional
  else if req.request.isLocalAccess then do
    require .storeConditional (!(p.unit.insts q).isStoreConditional)
    require .htmState (!(p.unit.insts q).inHtmTransactionalState)
    let p ← p.completeStore p.unit.storeWBIt
    return p.advance
  else p.send r.isSent

/-- One round of the loop of `writebackStores`; a round that leaves the loop changes nothing. -/
def Pipeline.writebackRound (p : Pipeline) (r : Round) : Except Fail Pipeline :=
  let x := p.unit.storeQueue.get p.unit.storeWBIt
  if !p.mayWriteBack r x || p.isStoreBlocked then .ok p
  else if x.size = 0 then p.advance.completeStore p.unit.storeWBIt
  else do
    let q ← orFail .nullInst x.inst
    if (p.unit.insts q).isDataPrefetch then return p.advance
    else do
      let req ← orFail .nullRequest x.req
      require .storeCommitted (!x.committed)
      let main ← orFail .nullRequest req.mainRequest
      if (main.isLLSC || r.isRelease) && p.unit.storeWBIt ≠ p.unit.storeQueue.head then return p
      else do
        require .memDataPresent (p.unit.insts q).memData.isNone
        { p with unit := p.unit.commitStore q req }.transmit r q req

/-! ## Executions and squashes -/

/-- Does the execution of the load `q` end with the load held? -/
def LSQUnit.holds (u : LSQUnit) (q : InstSeqNum) (acc : Access) : Bool :=
  match acc.push with
  | none => false
  | some p =>
      match (u.addressed q acc p).read p.req (u.insts q).lqIdx with
      | .ok (.held, _) => true
      | _ => false

/-- `executeLoad`; a load that executes has left the list of the loads that wait. -/
def Pipeline.executeLoad (p : Pipeline) (q : InstSeqNum) (acc : Access) :
    Except Fail Pipeline := do
  let r ← p.unit.executeLoad q acc
  let others := p.held.filter (· ≠ q)
  return { p with unit := r.2, held := if p.unit.holds q acc then q :: others else others }

/-- `squash`, in the unit and in the memory dependence unit. -/
def Pipeline.squash (p : Pipeline) (squashed_num : InstSeqNum) : Except Fail Pipeline := do
  let u ← (p.unit.markSquashed squashed_num).squash squashed_num
  return { p with unit := u, held := p.held.filter (· ≤ squashed_num) }

/-! ## Runs -/

/-- What the other stages and the memory system do with the unit of one thread. -/
inductive PipelineAction where
  | insertLoad (q : InstSeqNum) (i : DynInst)
  | insertStore (q : InstSeqNum) (i : DynInst)
  | executeLoad (q : InstSeqNum) (acc : Access)
  | executeStore (q : InstSeqNum) (acc : Access)
  /-- any change of an instruction by another stage, its queue position apart -/
  | update (q : InstSeqNum) (i : DynInst)
  | commitLoads (youngest_inst : InstSeqNum)
  | commitStores (youngest_inst : InstSeqNum)
  | writebackBlockedStore (isSent : Bool)
  | writebackRound (r : Round)
  | completeStore (store_idx : ℕ)
  | squash (squashed_num : InstSeqNum)
  /-- the loads that wait are replayed, since a strictly ordered load reached the head of the
  reorder buffer -/
  | replay

/-- One step. -/
def Pipeline.step (p : Pipeline) : PipelineAction → Except Fail Pipeline
  | .insertLoad q i => do
      let u ← (p.unit.setInst q i).insertLoad q
      return { p with unit := u }
  | .insertStore q i => do
      let u ← (p.unit.setInst q i).insertStore q
      return { p with unit := u }
  | .executeLoad q acc => p.executeLoad q acc
  | .executeStore q acc => do
      let r ← p.unit.executeStore q acc
      return { p with unit := r.2 }
  | .update q i => .ok { p with unit := p.unit.setInst q ((p.unit.insts q).updated i) }
  | .commitLoads y => do
      let u ← p.unit.commitLoads y
      return { p with unit := u }
  | .commitStores y => do
      let u ← p.unit.commitStores y
      return { p with unit := u }
  | .writebackBlockedStore isSent => p.writebackBlockedStore isSent
  | .writebackRound r => p.writebackRound r
  | .completeStore store_idx => p.completeStore store_idx
  | .squash n => p.squash n
  | .replay => .ok { p with held := [] }

/-- The program order of the calls: dispatch is in program order, an instruction executes while it
is in its queue, a store before it may write back, and the memory system answers a store that was
sent and was not answered yet. -/
def Pipeline.Admits (p : Pipeline) : PipelineAction → Prop
  | .insertLoad q i => i.isLoad = true ∧ p.unit.Youngest q
  | .insertStore q i => i.isLoad = false ∧ p.unit.Youngest q
  | .executeLoad q _ => ∃ i, p.unit.LoadAt i q
  | .executeStore s _ => ∃ j, p.unit.StoreAt j s ∧ (p.unit.storeQueue.get j).canWB = false
  | .completeStore j => p.unit.storeQueue.head ≤ j ∧ j < p.unit.storeWBIt ∧
      (p.unit.storeQueue.get j).committed = true ∧ (p.unit.storeQueue.get j).completed = false
  | _ => True

theorem youngest_iff {u : LSQUnit} {q : InstSeqNum} : u.Youngest q ↔
    (∀ x ∈ u.loadQueue.entries, x.inst.all (· < q) = true) ∧
      ∀ x ∈ u.storeQueue.entries, x.inst.all (· < q) = true := by
  unfold LSQUnit.Youngest LSQUnit.LoadAt LSQUnit.StoreAt
  simp only [CircularQueue.mem_entries, Option.all_eq_true, decide_eq_true_eq]
  constructor
  · rintro ⟨hl, hs⟩
    refine ⟨?_, ?_⟩
    · rintro _ ⟨i, hi, rfl⟩ p hp
      exact hl i p ⟨hi, hp⟩
    · rintro _ ⟨j, hj, rfl⟩ p hp
      exact hs j p ⟨hj, hp⟩
  · rintro ⟨hl, hs⟩
    exact ⟨fun i p hi => hl _ ⟨i, hi.1, rfl⟩ p hi.2, fun j p hj => hs _ ⟨j, hj.1, rfl⟩ p hj.2⟩

theorem exists_loadAt {u : LSQUnit} {q : InstSeqNum} :
    (∃ i, u.LoadAt i q) ↔ ∃ x ∈ u.loadQueue.entries, x.inst = some q := by
  constructor
  · rintro ⟨i, hi, hq⟩
    exact ⟨_, CircularQueue.mem_entries.mpr ⟨i, hi, rfl⟩, hq⟩
  · rintro ⟨x, hx, hq⟩
    obtain ⟨i, hi, rfl⟩ := CircularQueue.mem_entries.mp hx
    exact ⟨i, hi, hq⟩

theorem exists_storeAt {u : LSQUnit} {s : InstSeqNum} :
    (∃ j, u.StoreAt j s ∧ (u.storeQueue.get j).canWB = false) ↔
      ∃ x ∈ u.storeQueue.entries, x.inst = some s ∧ x.canWB = false := by
  constructor
  · rintro ⟨j, ⟨hj, hs⟩, hcan⟩
    exact ⟨_, CircularQueue.mem_entries.mpr ⟨j, hj, rfl⟩, hs, hcan⟩
  · rintro ⟨x, hx, hs, hcan⟩
    obtain ⟨j, hj, rfl⟩ := CircularQueue.mem_entries.mp hx
    exact ⟨j, ⟨hj, hs⟩, hcan⟩

instance (u : LSQUnit) (q : InstSeqNum) : Decidable (u.Youngest q) :=
  decidable_of_iff' _ youngest_iff

instance (p : Pipeline) (a : PipelineAction) : Decidable (p.Admits a) :=
  match a with
  | .insertLoad _ _ => inferInstanceAs (Decidable (_ ∧ _))
  | .insertStore _ _ => inferInstanceAs (Decidable (_ ∧ _))
  | .executeLoad _ _ => decidable_of_iff' _ exists_loadAt
  | .executeStore _ _ => decidable_of_iff' _ exists_storeAt
  | .completeStore _ => inferInstanceAs (Decidable (_ ∧ _))
  | .update _ _ | .commitLoads _ | .commitStores _ | .writebackBlockedStore _
  | .writebackRound _ | .squash _ | .replay => .isTrue trivial

/-- The unit as constructed. -/
def Pipeline.new (lqEntries sqEntries depCheckShift : ℕ) (checkLoads needsTSO : Bool) :
    Pipeline where
  unit := .new lqEntries sqEntries depCheckShift checkLoads
  needsTSO := needsTSO
  storeInFlight := false
  isStoreBlocked := false
  held := []

end Gem5.Lsq
