/-
# Loads and stores accessing the queues

Embedding of the accesses of `LSQUnit` (`cpu/o3/lsq_unit.cc`): `read` with its
search of the store queue, `write`, the ordering check `checkViolations`, and the
execution of loads and stores.

What the instruction set and the translation do during `initiateAcc` is the value
`Access`: the fault, the flags they leave on the instruction, and the request that
`LSQ::pushRequest` hands to `read` or `write` once the translation is complete.

`read`, `write` and `executeStore` take the index of their entry as an `int`, and `operator[]` of the
queue asserts that it is not negative; here it is a natural number, which is the same as long as a
queue has had less than `2 ^ 31` entries.
-/
import Gem5.LsqUnit

open Runs

namespace Gem5.Lsq

/-! ## Searching the store queue -/

/-- Coverage of the address range of a load by that of a store. -/
inductive AddrRangeCoverage where
  | PartialAddrRangeCoverage
  | FullAddrRangeCoverage
  | NoAddrRangeCoverage
  deriving DecidableEq, Repr

/-- Is the entry considered for forwarding?  Cache maintenance instructions go down
the store path but carry no data. -/
def SQEntry.considered (x : SQEntry) (i : DynInst) : Except Fail Bool :=
  if x.size = 0 || i.strictlyOrdered then .ok false
  else
    match x.req with
    | none => .error .nullRequest
    | some r => .ok (!(r.mainRequest.any (·.isCacheMaintenance)))

/-- The coverage logic of `read`: the main request of the load against one store
entry and its instruction.  `store_size` is an `int`, so it is sign-extended. -/
def coverage (main : Request) (x : SQEntry) (i : DynInst) : Except Fail AddrRangeCoverage :=
  let req_s := main.vaddr
  let req_e := req_s + main.size.setWidth 64
  let st_s := i.effAddr
  let st_e := st_s + x.size.signExtend 64
  let store_has_lower_limit := st_s ≤ req_s
  let store_has_upper_limit := req_e ≤ st_e
  let lower_load_has_store_part := req_s < st_e
  let upper_load_has_store_part := st_s < req_e
  if !i.isAtomic ∧ store_has_lower_limit ∧ store_has_upper_limit ∧ !main.isLLSC then
    match x.req.bind (·.mainRequest) with
    | none => .error .nullRequest
    | some store_req =>
        .ok (if store_req.isMasked then .PartialAddrRangeCoverage else .FullAddrRangeCoverage)
  else if
      (!main.isLLSC ∧
        ((store_has_lower_limit ∧ lower_load_has_store_part) ∨
          (store_has_upper_limit ∧ upper_load_has_store_part) ∨
          (lower_load_has_store_part ∧ upper_load_has_store_part))) ∨
      (main.isLLSC ∧
        ((store_has_lower_limit ∨ upper_load_has_store_part) ∧
          (store_has_upper_limit ∨ lower_load_has_store_part))) ∨
      (i.isAtomic ∧
        ((store_has_lower_limit ∨ upper_load_has_store_part) ∧
          (store_has_upper_limit ∨ lower_load_has_store_part))) then
    .ok .PartialAddrRangeCoverage
  else .ok .NoAddrRangeCoverage

/-- Where the search of the store queue ends. -/
inductive SearchResult where
  | full (store_idx : ℕ)
  | part (store_idx : ℕ)
  | none
  deriving DecidableEq, Repr

/-- The search loop of `read` for the load `q`, over the `k` stores below `store_it`. -/
def LSQUnit.search (u : LSQUnit) (q : InstSeqNum) (main : Request) :
    ℕ → ℕ → Except Fail SearchResult
  | 0, _ => .ok .none
  | k + 1, store_it => do
      -- move to the next older store
      let store_it ← orFail .iteratorBelowHead (u.storeQueue.prev store_it)
      let x := u.storeQueue.get store_it
      require .entryInvalid x.valid
      let st ← orFail .nullInst x.inst
      require .storeNotOlder (decide (st < q))
      if ← x.considered (u.insts st) then
        require .effAddrInvalid (u.insts st).effAddrValid
        match ← coverage main x (u.insts st) with
        | .FullAddrRangeCoverage => .ok (.full store_it)
        | .PartialAddrRangeCoverage => .ok (.part store_it)
        | .NoAddrRangeCoverage => search u q main k store_it
      else search u q main k store_it

/-! ## Reading -/

/-- What `read` does with a load. -/
inductive ReadOutcome where
  /-- rescheduled until it is at the head of the queue; returns a fault -/
  | strictlyOrdered
  /-- a local access, written back after its own delay -/
  | localAccess
  /-- a nested transaction start or commit, answered inside the core -/
  | htmNoAccess
  /-- a writeback with these bytes is scheduled -/
  | forwarded (data : List Byte)
  /-- the load is rescheduled and will be replayed -/
  | held
  /-- the packets of the request are sent to the cache -/
  | memory
  deriving DecidableEq, Repr

/-- The bytes `memset` or `memcpy` puts into `memData` for a covered load. -/
def SQEntry.forwardData (x : SQEntry) (i : DynInst) (main : Request) : List Byte :=
  let shift_amt := ((main.vaddr - i.effAddr).setWidth 32).toInt
  (List.range main.size.toNat).map fun k =>
    if x.isAllZeros then 0 else x.data (shift_amt.toNat + k)

/-- `setRequest` on a load queue entry. -/
def LSQUnit.setRequest (u : LSQUnit) (load_idx : ℕ) (req : Option LSQRequest) : LSQUnit :=
  { u with loadQueue := u.loadQueue.set load_idx { u.loadQueue.get load_idx with req := req } }

/-- `read` after a store was found that covers the load. -/
def LSQUnit.forward (u : LSQUnit) (req : LSQRequest) (main : Request) (q : InstSeqNum)
    (store_it : ℕ) : Except Fail (ReadOutcome × LSQUnit) := do
  let x := u.storeQueue.get store_it
  let st ← orFail .nullInst x.inst
  let data := x.forwardData (u.insts st) main
  require .htmCmdForwarded (!main.isHTMCmd)
  require .htmState (!(u.insts q).inHtmTransactionalState ||
    (!x.completed && (u.insts st).inHtmTransactionalState &&
      (u.insts q).htmUid == (u.insts st).htmUid))
  require .noOutstandingPackets (!req.isAnyOutstandingRequest || 0 < req.numOutstandingPackets)
  return (.forwarded data, u.setInst q { u.insts q with memData := some data })

/-- Should the load `q` be recorded as the stalling one? -/
def LSQUnit.stallsFirst (u : LSQUnit) (q : InstSeqNum) : Except Fail Bool :=
  if u.stalled then do
    let old ← orFail .nullInst (u.loadQueue.get u.stallingLoadIdx).inst
    return decide (q < old)
  else .ok true

/-- `read` after a store was found that holds part of the load's data. -/
def LSQUnit.hold (u : LSQUnit) (q : InstSeqNum) (load_idx store_it : ℕ) :
    Except Fail (ReadOutcome × LSQUnit) := do
  let x := u.storeQueue.get store_it
  require .storeCompleted (!x.completed)
  let st ← orFail .nullInst x.inst
  let first ← u.stallsFirst q
  let u :=
    if first then { u with stalled := true, stallingStoreIsn := st, stallingLoadIdx := load_idx }
    else u
  let u := u.setInst q { u.insts q with issued := false, effAddrValid := false }
  return (.held, u.setRequest load_idx none)

/-- `read` from the search of the store queue on. -/
def LSQUnit.searchAndAccess (u : LSQUnit) (req : LSQRequest) (main : Request) (q : InstSeqNum)
    (load_idx : ℕ) : Except Fail (ReadOutcome × LSQUnit) := do
  let sqIt := (u.insts q).sqIt
  require .storeItBelowWB (decide (u.storeWBIt ≤ sqIt))
  let stores := if (u.insts q).isDataPrefetch then 0 else sqIt - u.storeWBIt
  match ← u.search q main stores sqIt with
  | .full store_it => u.forward req main q store_it
  | .part store_it => u.hold q load_idx store_it
  | .none =>
      -- the bytes of `memData` are undefined until the response arrives
      return (.memory, u.setInst q { u.insts q with memData := some ((u.insts q).memData.getD []) })

/-- `LSQUnit::read` -/
def LSQUnit.read (u : LSQUnit) (req : LSQRequest) (load_idx : ℕ) :
    Except Fail (ReadOutcome × LSQUnit) := do
  let q ← orFail .nullInst (u.loadQueue.get load_idx).inst
  let main ← orFail .nullRequest req.mainRequest
  let u := u.setRequest load_idx (some req)
  require .alreadyExecuted (!(u.insts q).executed)
  if main.isStrictlyOrdered && (load_idx ≠ u.loadQueue.head || !(u.insts q).atCommit) then
    let u := u.setInst q { u.insts q with issued := false, effAddrValid := false }
    return (.strictlyOrdered, u.setRequest load_idx none)
  else if main.isLocalAccess then
    require .memDataPresent (u.insts q).memData.isNone
    require .htmState (!(u.insts q).inHtmTransactionalState)
    return (.localAccess, u.setInst q { u.insts q with memData := some [] })
  else if (main.isHTMStart || main.isHTMCommit) && main.noAccess then
    return (.htmNoAccess, u.setInst q { u.insts q with
      memData := some ((u.insts q).memData.getD (List.replicate main.size.toNat 0)) })
  else u.searchAndAccess req main q load_idx

/-! ## Writing -/

/-- `LSQUnit::write`: the data is copied unless the request carries none. -/
def LSQUnit.write (u : LSQUnit) (req : LSQRequest) (data : ℕ → Byte) (store_idx : ℕ) :
    Except Fail LSQUnit := do
  let x := u.storeQueue.get store_idx
  require .entryInvalid x.valid
  let main ← orFail .nullRequest req.mainRequest
  require .storeTooLarge (decide (req.size.toNat ≤ SQEntry.DataSize) || main.storeNoData)
  let copies :=
    !req.request.cacheBlockZero && !req.request.isCacheMaintenance && !req.request.isAtomic
  return { u with
    storeQueue := u.storeQueue.set store_idx { x with
      req := some req
      size := req.size
      isAllZeros := main.storeNoData
      data := fun k => if copies && decide (k < req.size.toNat) then data k else x.data k } }

/-! ## The ordering check -/

/-- The fault an execution returns. -/
inductive ExecFault where
  | noFault
  /-- the access itself faulted -/
  | access
  /-- "Detected fault with inst [sn] and [sn] at address" -/
  | violation (inst ld_inst : InstSeqNum) (ld_eff_addr1 : Addr)
  deriving DecidableEq, Repr

/-- The first and the last block of an access, at the granularity of the check. -/
def DynInst.firstBlock (i : DynInst) (depCheckShift : ℕ) : Addr := i.effAddr >>> depCheckShift

def DynInst.lastBlock (i : DynInst) (depCheckShift : ℕ) : Addr :=
  (i.effAddr + i.effSize.setWidth 64 - 1) >>> depCheckShift

/-- The overlap test of `checkViolations`. -/
def blocksMeet (depCheckShift : ℕ) (inst ld_inst : DynInst) : Bool :=
  decide (ld_inst.firstBlock depCheckShift ≤ inst.lastBlock depCheckShift) &&
    decide (inst.firstBlock depCheckShift ≤ ld_inst.lastBlock depCheckShift)

/-- Record the load `ld` as the violator of the ordering against `inst`. -/
def LSQUnit.report (u : LSQUnit) (inst ld : InstSeqNum) : ExecFault × LSQUnit :=
  (.violation inst ld ((u.insts ld).firstBlock u.depCheckShift),
    { u with memDepViolator := some ld })

/-- The loop of `checkViolations` for `inst`, over the `k` loads from `loadIt` on. -/
def LSQUnit.checkViolationsLoop (inst : InstSeqNum) :
    ℕ → ℕ → LSQUnit → Except Fail (ExecFault × LSQUnit)
  | 0, _, u => .ok (.noFault, u)
  | k + 1, loadIt, u =>
      match (u.loadQueue.get loadIt).inst with
      | none => .error .nullInst
      | some ld =>
          if !(u.insts ld).effAddrValid || (u.insts ld).strictlyOrdered then
            checkViolationsLoop inst k (loadIt + 1) u
          else if blocksMeet u.depCheckShift (u.insts inst) (u.insts ld) then
            if (u.insts inst).isLoad then
              if (u.insts ld).hitExternalSnoop && u.memDepViolator.all (ld < ·) then
                .ok (u.report inst ld)
              else
                checkViolationsLoop inst k (loadIt + 1)
                  (u.setInst ld { u.insts ld with possibleLoadViolation := true })
            else if u.memDepViolator.any (· < ld) then .ok (.noFault, u)
            else .ok (u.report inst ld)
          else checkViolationsLoop inst k (loadIt + 1) u

/-- `LSQUnit::checkViolations` -/
def LSQUnit.checkViolations (u : LSQUnit) (loadIt : ℕ) (inst : InstSeqNum) :
    Except Fail (ExecFault × LSQUnit) := do
  require .iteratorPastEnd (decide (loadIt ≤ u.loadQueue.endIdx))
  checkViolationsLoop inst (u.loadQueue.endIdx - loadIt) loadIt u

/-! ## Execution -/

/-- The request that `LSQ::pushRequest` hands on when the translation is complete
and memory has to be accessed. -/
structure Push where
  req : LSQRequest
  size : BitVec 32
  data : ℕ → Byte := fun _ => 0

/-- What `initiateAcc` does to an instruction. -/
structure Access where
  fault : Bool := false
  translationDelayed : Bool := false
  /-- a split access faulted in part and is not complete yet -/
  partialFault : Bool := false
  predicate : Bool := true
  memAccPredicate : Bool := true
  strictlyOrdered : Bool := false
  hasRequest : Bool := true
  push : Option Push := none

/-- `LSQ::pushRequest`, from the point where instructions get their address. -/
def LSQUnit.pushRequest (u : LSQUnit) (inst : InstSeqNum) (p : Push) : Except Fail LSQUnit := do
  let u := u.setInst inst { u.insts inst with
    effAddr := p.req.request.vaddr
    effSize := p.size
    effAddrValid := true }
  if (u.insts inst).isLoad then
    let r ← u.read p.req (u.insts inst).lqIdx
    return r.2
  else u.write p.req p.data (u.insts inst).sqIdx

/-- `initiateAcc` as far as the unit is concerned. -/
def LSQUnit.initiateAcc (u : LSQUnit) (inst : InstSeqNum) (acc : Access) : Except Fail LSQUnit :=
  let u := u.setInst inst { u.insts inst with strictlyOrdered := acc.strictlyOrdered }
  match acc.push with
  | none => .ok u
  | some p => u.pushRequest inst p

/-- The fault of the access. -/
def Access.storeFault (acc : Access) : ExecFault := if acc.fault then .access else .noFault

/-- `LSQUnit::executeLoad` -/
def LSQUnit.executeLoad (u : LSQUnit) (inst : InstSeqNum) (acc : Access) :
    Except Fail (ExecFault × LSQUnit) := do
  require .squashedInst (!(u.insts inst).squashed)
  let u ← u.initiateAcc inst acc
  if !acc.fault && !acc.memAccPredicate then
    require .notPredicated acc.predicate
    return (.noFault, u.setInst inst { u.insts inst with executed := true })
  else if acc.translationDelayed && !acc.fault then return (.noFault, u)
  else if acc.fault && acc.partialFault then return (.noFault, u)
  else if acc.fault || !acc.predicate then
    return (acc.storeFault,
      if !(acc.hasRequest && (u.insts inst).strictlyOrdered) || (u.insts inst).atCommit then
        u.setInst inst { u.insts inst with executed := true }
      else u)
  else if (u.insts inst).effAddrValid && u.checkLoads then
    u.checkViolations ((u.insts inst).lqIt + 1) inst
  else return (.noFault, u)

/-- `LSQUnit::executeStore` -/
def LSQUnit.executeStore (u : LSQUnit) (store_inst : InstSeqNum) (acc : Access) :
    Except Fail (ExecFault × LSQUnit) := do
  require .noStores (decide (u.stores ≠ 0))
  require .squashedInst (!(u.insts store_inst).squashed)
  let store_idx := (u.insts store_inst).sqIdx
  let loadIt := (u.insts store_inst).lqIt
  let u ← u.initiateAcc store_inst acc
  if acc.translationDelayed && !acc.fault then return (.noFault, u)
  else if !acc.predicate then return (acc.storeFault, u)
  else if (u.storeQueue.get store_idx).size = 0 then return (acc.storeFault, u)
  else
    require .storeFault (!acc.fault)
    if (u.insts store_inst).isStoreConditional || (u.insts store_inst).isAtomic then
      let x := u.storeQueue.get store_idx
      { u with
        storeQueue := u.storeQueue.set store_idx { x with canWB := true }
        storesToWB := u.storesToWB + 1 }.checkViolations loadIt store_inst
    else u.checkViolations loadIt store_inst

end Gem5.Lsq
