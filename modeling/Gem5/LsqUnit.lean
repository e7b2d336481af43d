/-
# The load/store queue unit of one thread

Embedding of `LSQUnit` (`cpu/o3/lsq_unit.hh`, `cpu/o3/lsq_unit.cc`): the load and
store queues, insertion, commit, store completion and squash.  The memory
accesses themselves (`read`, `write`, the execution of loads and stores) are in
`LsqAccess.lean`.

An instruction is named by its sequence number, and `insts` is the table of the
dynamic instructions that the queue entries point to.  Statistics, debug output,
the wake-up calls into the issue stage and the checker are left out.
-/
import Gem5.Runs
import Gem5.CircularQueue
import Gem5.Types

open Runs

namespace Gem5.Lsq

/-! ## Requests, instructions and entries -/

abbrev Addr := BitVec 64

abbrev Byte := BitVec 8

/-- The part of a `Request` that the unit reads. -/
structure Request where
  vaddr : Addr
  size : BitVec 32
  byteEnable : List Bool := []
  isStrictlyOrdered : Bool := false
  isLLSC : Bool := false
  isLocalAccess : Bool := false
  isAtomic : Bool := false
  isCacheMaintenance : Bool := false
  isHTMStart : Bool := false
  isHTMCommit : Bool := false
  isHTMCancel : Bool := false
  isHTMAbort : Bool := false
  noAccess : Bool := false
  storeNoData : Bool := false
  cacheBlockZero : Bool := false
  deriving DecidableEq, Repr

/-- `Request::isMasked`: some byte of the access is disabled. -/
def Request.isMasked (r : Request) : Bool := r.byteEnable.contains false

def Request.isHTMCmd (r : Request) : Bool :=
  r.isHTMStart || r.isHTMCommit || r.isHTMCancel || r.isHTMAbort

/-- An `LSQRequest`.  The main request of a split access covers the whole access;
`request` is its first fragment. -/
structure LSQRequest where
  mainRequest : Option Request
  request : Request
  size : BitVec 32
  isAnyOutstandingRequest : Bool := false
  numOutstandingPackets : ℕ := 0
  deriving DecidableEq, Repr

/-- The part of a dynamic instruction that the unit reads and writes. -/
structure DynInst where
  isLoad : Bool := false
  isAtomic : Bool := false
  isStoreConditional : Bool := false
  isDataPrefetch : Bool := false
  isHtmStart : Bool := false
  isHtmStop : Bool := false
  squashed : Bool := false
  issued : Bool := false
  executed : Bool := false
  completed : Bool := false
  atCommit : Bool := false
  effAddr : Addr := 0
  effSize : BitVec 32 := 0
  effAddrValid : Bool := false
  strictlyOrdered : Bool := false
  hitExternalSnoop : Bool := false
  possibleLoadViolation : Bool := false
  memData : Option (List Byte) := none
  inHtmTransactionalState : Bool := false
  htmUid : ℕ := 0
  htmDepth : ℤ := 0
  /-- the index of a store in the store queue -/
  sqIdx : ℕ := 0
  lqIdx : ℕ := 0
  /-- for a load, the end of the store queue when the load was inserted -/
  sqIt : ℕ := 0
  /-- for a store, the end of the load queue when the store was inserted -/
  lqIt : ℕ := 0
  deriving DecidableEq, Repr

/-- `LSQEntry`, the entries of the load queue. -/
structure LSQEntry where
  inst : Option InstSeqNum := none
  req : Option LSQRequest := none
  size : BitVec 32 := 0
  valid : Bool := false

/-- `SQEntry` -/
structure SQEntry extends LSQEntry where
  data : ℕ → Byte := fun _ => 0
  canWB : Bool := false
  committed : Bool := false
  completed : Bool := false
  isAllZeros : Bool := false

/-- `SQEntry::DataSize`, that is `MaxVecRegLenInBytes`. -/
def SQEntry.DataSize : ℕ := 4096

def LSQEntry.clear (_ : LSQEntry) : LSQEntry := {}

/-- `SQEntry::clear`: the data bytes stay. -/
def SQEntry.clear (e : SQEntry) : SQEntry := { data := e.data }

/-- The assertions and panics of the unit, and the null dereferences. -/
inductive Fail where
  /-- `assert(!loadQueue.full())` in `insertLoad` -/
  | loadQueueFull
  /-- `assert(loads < loadQueue.capacity())` in `insertLoad` -/
  | loadsAtCapacity
  /-- `assert(!storeQueue.full())` in `insertStore` -/
  | storeQueueFull
  /-- `assert(stores < storeQueue.capacity())` in `insertStore` -/
  | storesAtCapacity
  /-- `assert(!_valid)` in `LSQEntry::set`, `assert(!loadQueue.back().valid())` -/
  | entryValid
  /-- an entry asserted to be valid is not -/
  | entryInvalid
  /-- `assert(lqIdx > 0)` -/
  | indexZero
  /-- `pop_front` or `pop_back` of an empty queue -/
  | queueEmpty
  /-- an entry without an instruction is dereferenced -/
  | nullInst
  /-- an entry without a request, or a request without its main request -/
  | nullRequest
  /-- `panic("Is stalled should have been cleared by stalling load!")` -/
  | stalledStoreSquashed
  /-- `assert(!inst->isSquashed())` -/
  | squashedInst
  /-- `assert(!load_inst->isExecuted())` in `read` -/
  | alreadyExecuted
  /-- `assert(!load_inst->memData)` for a local access -/
  | memDataPresent
  /-- an assertion on the transactional state -/
  | htmState
  /-- `assert(stores != 0)` in `executeStore` -/
  | noStores
  /-- `assert(store_fault == NoFault)` in `executeStore` -/
  | storeFault
  /-- `assert(inst->readPredicate())` in `executeLoad` -/
  | notPredicated
  /-- `assert(store_it >= storeWBIt)` in `read` -/
  | storeItBelowWB
  /-- `assert(_cq && _idx > _cq->head())` in `operator--` -/
  | iteratorBelowHead
  /-- the walk over the load queue starts behind its end and never meets it -/
  | iteratorPastEnd
  /-- `assert(store_it->instruction()->seqNum < load_inst->seqNum)` -/
  | storeNotOlder
  /-- `assert(store_it->instruction()->effAddrValid())` -/
  | effAddrInvalid
  /-- `assert(!req->mainRequest()->isHTMCmd())` -/
  | htmCmdForwarded
  /-- `assert(req->_numOutstandingPackets > 0)` -/
  | noOutstandingPackets
  /-- `panic("Should not check one of these")` -/
  | storeCompleted
  /-- `assert(size <= SQEntry::DataSize || store_no_data)` in `write` -/
  | storeTooLarge
  /-- `assert(!storeWBIt->committed())` in `writebackStores` -/
  | storeCommitted
  /-- `assert(!inst->isStoreConditional())` for a local access in `writebackStores` -/
  | storeConditional
  deriving DecidableEq, Repr

/-! ## The unit -/

/-- The unit with its parameters and the dynamic instructions it refers to. -/
structure LSQUnit where
  depCheckShift : ℕ
  checkLoads : Bool
  storeQueue : CircularQueue SQEntry
  loadQueue : CircularQueue LSQEntry
  loads : ℤ
  stores : ℤ
  storesToWB : ℤ
  storeWBIt : ℕ
  memDepViolator : Option InstSeqNum
  stalled : Bool
  stallingStoreIsn : InstSeqNum
  stallingLoadIdx : ℕ
  htmStarts : ℤ
  htmStops : ℤ
  lastRetiredHtmUid : ℕ
  /-- the uid counters of the thread's transactional checkpoint, if it has one -/
  htmCheckpoint : Option ℕ
  globalHtmUid : ℕ
  insts : InstSeqNum → DynInst

/-- The constructor followed by `resetState`; both queues get one spare slot. -/
def LSQUnit.new (lqEntries sqEntries depCheckShift : ℕ) (checkLoads : Bool) : LSQUnit where
  depCheckShift := depCheckShift
  checkLoads := checkLoads
  storeQueue := .new (sqEntries + 1) {}
  loadQueue := .new (lqEntries + 1) {}
  loads := 0
  stores := 0
  storesToWB := 0
  storeWBIt := 1
  memDepViolator := none
  stalled := false
  stallingStoreIsn := 0
  stallingLoadIdx := 0
  htmStarts := 0
  htmStops := 0
  lastRetiredHtmUid := 0
  htmCheckpoint := none
  globalHtmUid := 0
  insts := fun _ => {}

/-- `lqFull`: is the load queue full? -/
def LSQUnit.lqFull (u : LSQUnit) : Bool := u.loadQueue.full

/-- `sqFull`: is the store queue full? -/
def LSQUnit.sqFull (u : LSQUnit) : Bool := u.storeQueue.full

/-- Change the instruction `q` of the table. -/
def LSQUnit.setInst (u : LSQUnit) (q : InstSeqNum) (i : DynInst) : LSQUnit :=
  { u with insts := Function.update u.insts q i }

@[simp] theorem LSQUnit.insts_setInst (u : LSQUnit) (q : InstSeqNum) (i : DynInst) :
    (u.setInst q i).insts q = i := by
  unfold LSQUnit.setInst
  exact Function.update_self q i u.insts

theorem LSQUnit.insts_setInst_of_ne (u : LSQUnit) {q q' : InstSeqNum} (i : DynInst) (h : q' ≠ q) :
    (u.setInst q i).insts q' = u.insts q' := by
  unfold LSQUnit.setInst
  exact Function.update_of_ne h i u.insts

/-! ## Insertion -/

/-- The bookkeeping of `insertLoad` for a transaction start: the nesting depth, and
a new transaction uid unless the instruction is already inside a transaction. -/
def LSQUnit.startHtm (u : LSQUnit) (q : InstSeqNum) : Except Fail LSQUnit :=
  let htm_depth := u.htmStarts + 1 - u.htmStops
  match u.htmCheckpoint with
  | none => .error .htmState
  | some uid =>
      if (u.insts q).inHtmTransactionalState then
        .ok { u.setInst q { u.insts q with htmUid := uid, htmDepth := htm_depth } with
          htmStarts := u.htmStarts + 1 }
      else
        .ok { u.setInst q { u.insts q with
                inHtmTransactionalState := true
                htmUid := u.globalHtmUid + 1
                htmDepth := htm_depth } with
          htmStarts := u.htmStarts + 1
          htmCheckpoint := some (u.globalHtmUid + 1)
          globalHtmUid := u.globalHtmUid + 1 }

/-- The transactional bookkeeping at the end of `insertLoad`. -/
def LSQUnit.trackHtm (u : LSQUnit) (q : InstSeqNum) : Except Fail LSQUnit := do
  let u ← (if (u.insts q).isHtmStart then u.startHtm q else .ok u)
  return if (u.insts q).isHtmStop then { u with htmStops := u.htmStops + 1 } else u

/-- `LSQEntry::set` -/
def LSQEntry.set (e : LSQEntry) (inst : InstSeqNum) : Except Fail LSQEntry := do
  require .entryValid (!e.valid)
  return { e with inst := some inst, valid := true, size := 0 }

/-- `SQEntry::set` -/
def SQEntry.set (e : SQEntry) (inst : InstSeqNum) : Except Fail SQEntry := do
  let base ← e.toLSQEntry.set inst
  return { e with toLSQEntry := base }

/-- `LSQUnit::insertLoad` -/
def LSQUnit.insertLoad (u : LSQUnit) (load_inst : InstSeqNum) : Except Fail LSQUnit := do
  require .loadQueueFull (!u.loadQueue.full)
  require .loadsAtCapacity (u.loads < u.loadQueue.capacity)
  let loadQueue := u.loadQueue.advanceTail
  let back ← loadQueue.back.set load_inst
  require .indexZero (loadQueue.tail > 0)
  { u.setInst load_inst { u.insts load_inst with
        sqIt := u.storeQueue.endIdx
        lqIdx := loadQueue.tail
        lqIt := loadQueue.tail } with
    loadQueue := loadQueue.set loadQueue.tail back
    loads := u.loads + 1 }.trackHtm load_inst

/-- `LSQUnit::insertStore` -/
def LSQUnit.insertStore (u : LSQUnit) (store_inst : InstSeqNum) : Except Fail LSQUnit := do
  require .storeQueueFull (!u.storeQueue.full)
  require .storesAtCapacity (u.stores < u.storeQueue.capacity)
  let storeQueue := u.storeQueue.advanceTail
  require .indexZero (u.loadQueue.tail + 1 > 0)
  let back ← storeQueue.back.set store_inst
  return { u.setInst store_inst { u.insts store_inst with
        sqIdx := storeQueue.tail
        lqIdx := u.loadQueue.tail + 1
        lqIt := u.loadQueue.endIdx } with
    storeQueue := storeQueue.set storeQueue.tail back
    stores := u.stores + 1 }

/-- `LSQUnit::insert`: loads go to the load queue, stores and atomics to the store
queue. -/
def LSQUnit.insert (u : LSQUnit) (inst : InstSeqNum) : Except Fail LSQUnit :=
  if (u.insts inst).isLoad then u.insertLoad inst else u.insertStore inst

/-! ## Commit and completion -/

/-- `LSQUnit::commitLoad` -/
def LSQUnit.commitLoad (u : LSQUnit) : Except Fail LSQUnit := do
  require .entryInvalid u.loadQueue.front.valid
  let loadQueue := u.loadQueue.set u.loadQueue.head u.loadQueue.front.clear
  let loadQueue ← orFail .queueEmpty loadQueue.popFront
  return { u with loadQueue := loadQueue, loads := u.loads - 1 }

/-- The condition of the loop of `commitLoads`. -/
def LSQUnit.headLoadDone (u : LSQUnit) (youngest_inst : InstSeqNum) : Except Fail Bool :=
  if u.loads = 0 then .ok false
  else do
    let q ← orFail .nullInst u.loadQueue.front.inst
    return decide (q ≤ youngest_inst)

/-- The loop of `commitLoads`.  Every round pops one load, so the size of the queue
bounds the rounds; on an empty queue `commitLoad` fails. -/
def LSQUnit.commitLoadsLoop (youngest_inst : InstSeqNum) : ℕ → LSQUnit → Except Fail LSQUnit
  | 0, u => do
      if ← u.headLoadDone youngest_inst then u.commitLoad else .ok u
  | k + 1, u => do
      if ← u.headLoadDone youngest_inst then
        let u ← u.commitLoad
        commitLoadsLoop youngest_inst k u
      else .ok u

/-- `LSQUnit::commitLoads` -/
def LSQUnit.commitLoads (u : LSQUnit) (youngest_inst : InstSeqNum) : Except Fail LSQUnit := do
  require .entryInvalid (u.loads = 0 || u.loadQueue.front.valid)
  u.commitLoadsLoop youngest_inst u.loadQueue.size

/-- The loop of `commitStores` over the `k` entries from index `i` on. -/
def LSQUnit.commitStoresLoop (youngest_inst : InstSeqNum) :
    ℕ → ℕ → LSQUnit → Except Fail LSQUnit
  | 0, _, u => .ok u
  | k + 1, i, u => do
      let x := u.storeQueue.get i
      require .entryInvalid x.valid
      if x.canWB then commitStoresLoop youngest_inst k (i + 1) u
      else
        let q ← orFail .nullInst x.inst
        if q > youngest_inst then .ok u
        else
          commitStoresLoop youngest_inst k (i + 1)
            { u with
              storeQueue := u.storeQueue.set i { x with canWB := true }
              storesToWB := u.storesToWB + 1 }

/-- `LSQUnit::commitStores` -/
def LSQUnit.commitStores (u : LSQUnit) (youngest_inst : InstSeqNum) : Except Fail LSQUnit := do
  require .entryInvalid (u.stores = 0 || u.storeQueue.front.valid)
  u.commitStoresLoop youngest_inst u.storeQueue.size u.storeQueue.head

/-- One round of the loop of `completeStore`: the head store leaves the queue. -/
def LSQUnit.popStore (u : LSQUnit) : Except Fail LSQUnit := do
  let storeQueue := u.storeQueue.set u.storeQueue.head u.storeQueue.front.clear
  let storeQueue ← orFail .queueEmpty storeQueue.popFront
  return { u with storeQueue := storeQueue, stores := u.stores - 1 }

/-- The `do … while` loop of `completeStore`; every round pops one store. -/
def LSQUnit.popStores : ℕ → LSQUnit → Except Fail LSQUnit
  | 0, u => u.popStore
  | k + 1, u => do
      let u ← u.popStore
      if u.storeQueue.front.completed && !u.storeQueue.empty then popStores k u else .ok u

/-- The end of a stall on the store `q` (`completeStore`, `storePostSend`). -/
def LSQUnit.unstall (u : LSQUnit) (q : InstSeqNum) : LSQUnit :=
  if u.stalled && q = u.stallingStoreIsn then { u with stalled := false, stallingStoreIsn := 0 }
  else u

/-- `LSQUnit::completeStore` -/
def LSQUnit.completeStore (u : LSQUnit) (store_idx : ℕ) : Except Fail LSQUnit := do
  let x := u.storeQueue.get store_idx
  require .entryInvalid x.valid
  let store_inst ← orFail .nullInst x.inst
  let u := { u with
    storeQueue := u.storeQueue.set store_idx { x with completed := true }
    storesToWB := u.storesToWB - 1 }
  let u ← (if store_idx = u.storeQueue.head then u.popStores u.storeQueue.size else .ok u)
  let u := u.unstall store_inst
  return u.setInst store_inst { u.insts store_inst with completed := true }

/-- `LSQUnit::storePostSend` -/
def LSQUnit.storePostSend (u : LSQUnit) : Except Fail LSQUnit := do
  let q ← orFail .nullInst (u.storeQueue.get u.storeWBIt).inst
  let u := u.unstall q
  let u :=
    if (u.insts q).isStoreConditional then u
    else u.setInst q { u.insts q with completed := true }
  return { u with storeWBIt := u.storeWBIt + 1 }

/-! ## Squash -/

/-- One round of the first loop of `squash`: the youngest load is removed. -/
def LSQUnit.squashLoad (u : LSQUnit) (q : InstSeqNum) : Except Fail LSQUnit := do
  let i := u.insts q
  let loadQueue := u.loadQueue.set u.loadQueue.tail u.loadQueue.back.clear
  let popped ← orFail .queueEmpty loadQueue.popBack
  let u :=
    if u.stalled && u.loadQueue.tail = u.stallingLoadIdx then
      { u with stalled := false, stallingStoreIsn := 0, stallingLoadIdx := 0 }
    else u
  return { u.setInst q { i with squashed := true } with
    htmStarts := if i.isHtmStart then max 0 (u.htmStarts - 1) else u.htmStarts
    htmStops := if i.isHtmStop then max 0 (u.htmStops - 1) else u.htmStops
    loadQueue := popped
    loads := u.loads - 1 }

/-- The first loop of `squash`; every round pops one load. -/
def LSQUnit.squashLoads (squashed_num : InstSeqNum) : ℕ → LSQUnit → Except Fail LSQUnit
  | k, u =>
      if u.loads = 0 then .ok u
      else
        match u.loadQueue.back.inst with
        | none => .error .nullInst
        | some q =>
            if q > squashed_num then
              match k with
              | 0 => u.squashLoad q
              | k + 1 => do
                  let u ← u.squashLoad q
                  squashLoads squashed_num k u
            else .ok u

/-- The uid of the youngest transaction start still in the load queue. -/
def LSQUnit.inFlightUid (u : LSQUnit) : ℕ → ℕ → ℕ → Except Fail ℕ
  | 0, _, uid => .ok uid
  | k + 1, i, uid => do
      let q ← orFail .nullInst (u.loadQueue.get i).inst
      inFlightUid u k (i + 1)
        (if (u.insts q).isHtmStart && !(u.insts q).squashed then (u.insts q).htmUid else uid)

/-- One round of the second loop of `squash`: the youngest store is removed. -/
def LSQUnit.squashStore (u : LSQUnit) (q : InstSeqNum) : Except Fail LSQUnit := do
  require .stalledStoreSquashed (!(u.stalled && q = u.stallingStoreIsn))
  let storeQueue := u.storeQueue.set u.storeQueue.tail u.storeQueue.back.clear
  let popped ← orFail .queueEmpty storeQueue.popBack
  return { u.setInst q { u.insts q with squashed := true } with
    storeQueue := popped
    stores := u.stores - 1 }

/-- The second loop of `squash`.  A store that can write back has committed and
ends the loop. -/
def LSQUnit.squashStores (squashed_num : InstSeqNum) : ℕ → LSQUnit → Except Fail LSQUnit
  | k, u =>
      if u.stores = 0 then .ok u
      else
        match u.storeQueue.back.inst with
        | none => .error .nullInst
        | some q =>
            if q > squashed_num then
              if u.storeQueue.back.canWB then .ok u
              else
                match k with
                | 0 => u.squashStore q
                | k + 1 => do
                    let u ← u.squashStore q
                    squashStores squashed_num k u
            else .ok u

/-- `LSQUnit::squash` -/
def LSQUnit.squash (u : LSQUnit) (squashed_num : InstSeqNum) : Except Fail LSQUnit := do
  let u ← u.squashLoads squashed_num u.loadQueue.size
  let in_flight_uid ← u.inFlightUid u.loadQueue.size u.loadQueue.head 0
  let u := { u with
    htmCheckpoint := u.htmCheckpoint.map fun _ =>
      if in_flight_uid > 0 then in_flight_uid else u.lastRetiredHtmUid
    memDepViolator :=
      match u.memDepViolator with
      | some v => if squashed_num < v then none else some v
      | none => none }
  u.squashStores squashed_num u.storeQueue.size

/-- `LSQUnit::getMemDepViolator` -/
def LSQUnit.getMemDepViolator (u : LSQUnit) : Option InstSeqNum × LSQUnit :=
  (u.memDepViolator, { u with memDepViolator := none })

end Gem5.Lsq
