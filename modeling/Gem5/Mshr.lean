/-
# Miss status holding registers

Embedding of `MSHR` and its target lists (`mem/cache/mshr.hh`, `mem/cache/mshr.cc`), with the order
in which `BaseCache::recvTimingResp` (`mem/cache/base.cc`) applies its operations.  The data of the
packets is not modelled, and neither is the state of the registers of the caches above, of which a
packet only shows whether there is one among its senders.
-/
import Gem5.MemCmd
import Gem5.Runs

open Runs

namespace Gem5.Mem

/-! ## Packets -/

/-- The flags of `Request` that a register asks for. -/
structure RequestFlags where
  uncacheable : Bool := false
  strictOrder : Bool := false
  privileged : Bool := false
  llsc : Bool := false
  memSwap : Bool := false
  memSwapCond : Bool := false
  secure : Bool := false
  clean : Bool := false
  invalidate : Bool := false
  deriving DecidableEq, Repr

/-- `isCacheMaintenance()`: `CLEAN` or `INVALIDATE` is set. -/
def RequestFlags.isCacheMaintenance (req : RequestFlags) : Bool := req.clean || req.invalidate

/-- `isCacheInvalidate()` -/
def RequestFlags.isCacheInvalidate (req : RequestFlags) : Bool := req.invalidate

/-- A packet; `fromMSHR` says whether a register is among its sender states. -/
structure MissPacket where
  cmd : MemCmd
  req : RequestFlags := {}
  addr : ℕ := 0
  size : ℕ := 0
  expressSnoop : Bool := false
  cacheResponding : Bool := false
  responderHadWritable : Bool := false
  satisfied : Bool := false
  hasSharers : Bool := false
  fromMSHR : Bool := false
  deriving DecidableEq, Repr

namespace MissPacket

def needsWritable (pkt : MissPacket) : Bool := pkt.cmd.needsWritable

/-- `getOffset(blk_size)` -/
def getOffset (pkt : MissPacket) (blkSize : ℕ) : ℕ := pkt.addr &&& (blkSize - 1)

/-- `replaceUpgrade(pkt)` -/
def replaceUpgrade (pkt : MissPacket) : MissPacket :=
  match pkt.cmd with
  | .UpgradeReq => { pkt with cmd := .ReadExReq }
  | .SCUpgradeReq => { pkt with cmd := .SCUpgradeFailReq }
  | .StoreCondReq => { pkt with cmd := .StoreCondFailReq }
  | _ => pkt

/-- The flags that keep a write from being merged with others. -/
def noMerge (pkt : MissPacket) : Bool :=
  pkt.req.uncacheable || pkt.req.strictOrder || pkt.req.privileged || pkt.req.llsc ||
    pkt.req.memSwap || pkt.req.memSwapCond || pkt.req.secure

end MissPacket

/-! ## Targets -/

/-- `MSHR::Target::Source` -/
inductive Source where
  | FromCPU
  | FromSnoop
  | FromPrefetcher
  deriving DecidableEq, Repr

/-- `MSHR::Target` -/
structure Target where
  pkt : MissPacket
  readyTime : ℕ
  order : ℕ
  source : Source
  markedPending : Bool
  allocOnFill : Bool
  deriving DecidableEq, Repr

/-- `MSHR::TargetList` -/
structure TargetList where
  targets : List Target := []
  needsWritable : Bool := false
  hasUpgrade : Bool := false
  allocOnFill : Bool := false
  hasFromCache : Bool := false
  canMergeWrites : Bool := true
  writesBitmap : List Bool := []
  blkSize : ℕ := 0
  deriving DecidableEq

namespace TargetList

/-- `resetFlags()` -/
def resetFlags (l : TargetList) : TargetList :=
  { l with
    needsWritable := false
    hasUpgrade := false
    allocOnFill := false
    hasFromCache := false
    canMergeWrites := true
    writesBitmap := l.writesBitmap.map fun _ => false }

/-- `init(blk_addr, blk_size)` -/
def init (l : TargetList) (blkSize : ℕ) : TargetList :=
  let resized : TargetList :=
    { l with blkSize := blkSize, writesBitmap := List.replicate blkSize false }
  resized.resetFlags

/-- `isReset()` -/
def isReset (l : TargetList) : Bool :=
  !l.needsWritable && !l.hasUpgrade && !l.allocOnFill && !l.hasFromCache && l.canMergeWrites

/-- `isWholeLineWrite()` -/
def isWholeLineWrite (l : TargetList) : Bool := l.writesBitmap.all id

/-- The bytes that a packet writes, marked in the bitmap. -/
def markWritten (l : TargetList) (pkt : MissPacket) : TargetList :=
  let offset := pkt.getOffset l.blkSize
  { l with writesBitmap := l.writesBitmap.mapIdx fun i b =>
      b || decide (offset ≤ i ∧ i < offset + pkt.size) }

/-- `updateWriteFlags(pkt)` -/
def updateWriteFlags (l : TargetList) (pkt : MissPacket) : TargetList :=
  if l.isWholeLineWrite then l
  else if !l.canMergeWrites then l
  else if !pkt.cmd.isWrite then { l with canMergeWrites := false }
  else
    let l' := if l.targets.isEmpty || !pkt.noMerge then l.markWritten pkt else l
    { l' with canMergeWrites := l.canMergeWrites && !pkt.noMerge }

/-- The part of `updateFlags` that leaves out prefetches. -/
def updateRequestFlags (l : TargetList) (pkt : MissPacket) (source : Source) : TargetList :=
  if source = .FromPrefetcher then l
  else
    let l' : TargetList := { l with hasFromCache := l.hasFromCache || pkt.cmd.fromCache }
    l'.updateWriteFlags pkt

/-- `updateFlags(pkt, source, alloc_on_fill)` -/
def updateFlags (l : TargetList) (pkt : MissPacket) (source : Source) (allocOnFill : Bool) :
    TargetList :=
  if source = .FromSnoop then l
  else
    let l' : TargetList :=
      { l with
        needsWritable := l.needsWritable || pkt.needsWritable
        hasUpgrade := l.hasUpgrade || (pkt.cmd.isUpgrade || pkt.cmd = .StoreCondReq)
        allocOnFill := l.allocOnFill || allocOnFill }
    l'.updateRequestFlags pkt source

/-- `populateFlags()` -/
def populateFlags (l : TargetList) : TargetList :=
  l.targets.foldl (fun l t => l.updateFlags t.pkt t.source t.allocOnFill) l.resetFlags

/-- `add(pkt, readyTime, order, source, markPending, alloc_on_fill)`; the target stays marked only
if the packet has come through another register, whose flag is then set. -/
def add (l : TargetList) (pkt : MissPacket) (readyTime order : ℕ) (source : Source)
    (markPending allocOnFill : Bool) : TargetList :=
  let l' := l.updateFlags pkt source allocOnFill
  { l' with targets := l'.targets ++
      [⟨pkt, readyTime, order, source, markPending && pkt.fromMSHR, allocOnFill⟩] }

/-- `replaceUpgrades()` -/
def replaceUpgrades (l : TargetList) : TargetList :=
  if l.hasUpgrade then
    { l with
      targets := l.targets.map fun t => { t with pkt := t.pkt.replaceUpgrade }
      hasUpgrade := false }
  else l

/-- The mark that `clearDownstreamPending` takes away from each target. -/
def unmark (ts : List Target) : List Target := ts.map fun t => { t with markedPending := false }

/-- `clearDownstreamPending()` -/
def clearDownstreamPending (l : TargetList) : TargetList := { l with targets := unmark l.targets }

@[simp] theorem updateWriteFlags_targets (l : TargetList) (pkt : MissPacket) :
    (l.updateWriteFlags pkt).targets = l.targets := by
  unfold updateWriteFlags markWritten
  split_ifs <;> rfl

end TargetList

/-! ## The register -/

/-- `MSHR` -/
structure MSHR where
  inService : Bool := false
  downstreamPending : Bool := false
  pendingModified : Bool := false
  postInvalidate : Bool := false
  postDowngrade : Bool := false
  wasWholeLineWrite : Bool := false
  isForward : Bool := false
  readyTime : ℕ := 0
  order : ℕ := 0
  blkSize : ℕ := 0
  targets : TargetList := {}
  deferredTargets : TargetList := {}
  deriving DecidableEq

/-- The assertions of the register and of the code around it, and `wrongOrder` for an operation
that the cache does not apply in the state it is in. -/
inductive MshrFail where
  | hasTargets
  | noTargets
  | hardPFReq
  | alreadyInService
  | notInService
  | notDownstreamPending
  | downstreamPending
  | snoopNeedsWritable
  | targetsNeedWritable
  | notAResponse
  | wholeLineWriteNotInvalidating
  | extractSource
  | targetsLeft
  | deferredTargetsNotReset
  | wrongOrder
  deriving DecidableEq, Repr

namespace MSHR

/-- `allocate(blk_addr, blk_size, target, when_ready, order, alloc_on_fill)`; the queue hands out a
register without targets. -/
def allocate (m : MSHR) (blkSize : ℕ) (target : MissPacket) (whenReady order : ℕ)
    (allocOnFill : Bool) : Except MshrFail MSHR := do
  require .hasTargets (m.targets.targets.isEmpty && m.deferredTargets.targets.isEmpty)
  let source : Source := if target.cmd = .HardPFReq then .FromPrefetcher else .FromCPU
  return { m with
    blkSize := blkSize
    readyTime := whenReady
    order := order
    isForward := false
    wasWholeLineWrite := false
    inService := false
    downstreamPending := false
    targets := (m.targets.init blkSize).add target whenReady order source true allocOnFill
    deferredTargets := m.deferredTargets.init blkSize }

/-- `clearDownstreamPending()` -/
def clearDownstreamPending (m : MSHR) : Except MshrFail MSHR := do
  require .notDownstreamPending m.downstreamPending
  return { m with downstreamPending := false, targets := m.targets.clearDownstreamPending }

/-- `markInService(pending_modified_resp)` -/
def markInService (m : MSHR) (pendingModifiedResp : Bool) : Except MshrFail MSHR := do
  require .alreadyInService (!m.inService)
  return { m with
    inService := true
    pendingModified := m.targets.needsWritable || pendingModifiedResp
    postInvalidate := false
    postDowngrade := false
    targets := if m.downstreamPending then m.targets else m.targets.clearDownstreamPending
    wasWholeLineWrite := m.targets.isWholeLineWrite }

/-- `deallocate()` -/
def deallocate (m : MSHR) : Except MshrFail MSHR := do
  require .targetsLeft m.targets.targets.isEmpty
  require .deferredTargetsNotReset m.deferredTargets.isReset
  return { m with targets := m.targets.resetFlags, inService := false }

/-- Whether `allocateTarget` defers the target, with `tgtPkt` the packet of the first target. -/
def defers (m : MSHR) (tgtPkt pkt : MissPacket) : Bool :=
  pkt.req.isCacheMaintenance || tgtPkt.req.isCacheMaintenance ||
    !m.deferredTargets.targets.isEmpty ||
    (m.inService &&
      (m.postInvalidate ||
        (pkt.needsWritable && (!m.pendingModified || m.postDowngrade || m.isForward))))

/-- `allocateTarget(pkt, whenReady, order, alloc_on_fill)` -/
def allocateTarget (m : MSHR) (pkt : MissPacket) (whenReady order : ℕ) (allocOnFill : Bool) :
    Except MshrFail MSHR := do
  require .hardPFReq (pkt.cmd ≠ .HardPFReq)
  let front ← orFail .noTargets m.targets.targets.head?
  let deferred := if m.inService && m.postInvalidate then pkt.replaceUpgrade else pkt
  return if m.defers front.pkt pkt then
      { m with deferredTargets :=
          m.deferredTargets.add deferred whenReady order .FromCPU true allocOnFill }
    else
      { m with targets := m.targets.add pkt whenReady order .FromCPU (!m.inService) allocOnFill }

/-- The copy of a snooped packet that is kept. -/
def snoopCopy (m : MSHR) (willRespond : Bool) (pkt : MissPacket) : MissPacket :=
  if willRespond then
    { cmd := pkt.cmd, req := pkt.req, addr := pkt.addr, size := pkt.size, fromMSHR := pkt.fromMSHR }
  else
    { cmd := pkt.cmd, req := pkt.req, addr := pkt.addr / m.blkSize * m.blkSize, size := m.blkSize }

/-- What `handleSnoop` tells the snooped packet about this register. -/
def markSnooped (m : MSHR) (willRespond : Bool) (pkt : MissPacket) : MissPacket :=
  if willRespond then { pkt with cacheResponding := true, responderHadWritable := true }
  else if m.pendingModified && pkt.cmd.isClean then { pkt with satisfied := true }
  else pkt

/-- The target that `handleSnoop` appends. -/
def appendSnoop (m : MSHR) (willRespond : Bool) (pkt : MissPacket) (curTick order : ℕ) : MSHR :=
  { m with
    targets := m.targets.add (m.snoopCopy willRespond pkt) curTick order .FromSnoop
      (m.downstreamPending && m.targets.needsWritable) false
    postInvalidate := m.postInvalidate || (pkt.needsWritable || pkt.cmd.isInvalidate) }

/-- The end of `handleSnoop`: what the snoop does to a request in service that precedes it. -/
def snoopInService (m : MSHR) (pkt : MissPacket) (curTick order : ℕ) :
    Bool × MissPacket × MSHR :=
  let willRespond := m.pendingModified && pkt.cmd.needsResponse && !pkt.cmd.isClean
  let keep := m.pendingModified || pkt.cmd.isInvalidate
  let m' := if keep then m.appendSnoop willRespond pkt curTick order else m
  let pkt' := if keep then m.markSnooped willRespond pkt else pkt
  if !pkt.needsWritable && !pkt.req.uncacheable then
    (willRespond, { pkt' with hasSharers := true }, { m' with postDowngrade := true })
  else (willRespond, pkt', m')

/-- The upgrades that an invalidating snoop replaces in the deferred targets. -/
def replaceDeferred (m : MSHR) (pkt : MissPacket) : MSHR :=
  if pkt.needsWritable || pkt.req.isCacheInvalidate then
    { m with deferredTargets := m.deferredTargets.replaceUpgrades }
  else m

/-- The upgrades that it replaces in all targets of a request that it precedes. -/
def replaceAll (m : MSHR) (pkt : MissPacket) : MSHR :=
  if pkt.needsWritable || pkt.req.isCacheInvalidate then
    { m with
      targets := m.targets.replaceUpgrades
      deferredTargets := m.deferredTargets.replaceUpgrades }
  else m

/-- `handleSnoop(pkt, order)`, with the snooped packet as it leaves it. -/
def handleSnoop (m : MSHR) (pkt : MissPacket) (curTick order : ℕ) :
    Except MshrFail (Bool × MissPacket × MSHR) := do
  require .snoopNeedsWritable
    (pkt.needsWritable == pkt.cmd.isInvalidate || pkt.req.isCacheMaintenance)
  if !m.inService || (pkt.expressSnoop && m.downstreamPending) then
    return (false, pkt, m.replaceAll pkt)
  else do
    let front ← orFail .noTargets m.targets.targets.head?
    let m := m.replaceDeferred pkt
    return if m.postInvalidate || front.pkt.req.isCacheInvalidate then (true, pkt, m)
      else m.snoopInService pkt curTick order

/-- The targets that a `ReadRespWithInvalidate` leaves: those from the CPU after the first. -/
def notServiceable (ts : List Target) : List Target := ts.tail.filter (·.source = .FromCPU)

/-- The targets that a `ReadRespWithInvalidate` serves: the first one and the others that do not
come from the CPU. -/
def serviceable (ts : List Target) : List Target :=
  ts.head?.toList ++ ts.tail.filter (·.source ≠ .FromCPU)

/-- The assertions on the sources of the targets that are served. -/
def serviceableSources (ts : List Target) : Bool :=
  ts.head?.all (fun t => t.source = .FromCPU || t.source = .FromPrefetcher) &&
    (ts.tail.filter (·.source ≠ .FromCPU)).all fun t => t.source = .FromSnoop

/-- `extractServiceableTargets(pkt)`, for the command of the packet. -/
def extractServiceableTargets (m : MSHR) (cmd : MemCmd) : Except MshrFail (TargetList × MSHR) :=
  let ready := ({} : TargetList).init m.blkSize
  if cmd = .ReadRespWithInvalidate then do
    require .extractSource (serviceableSources m.targets.targets)
    let left : TargetList := { m.targets with targets := notServiceable m.targets.targets }
    return ({ ready with targets := serviceable m.targets.targets }.populateFlags,
      { m with targets := left.populateFlags })
  else .ok (m.targets, { m with targets := ready.populateFlags })

/-- The lists that `promoteDeferredTargets` leaves: the targets before the first cache maintenance
request are promoted, or that request alone when there is nothing else. -/
def promoted (targets deferred : List Target) : List Target × List Target :=
  match deferred.span fun t => !t.pkt.req.isCacheMaintenance with
  | ([], t :: rest) => if targets.isEmpty then ([t], rest) else (targets, t :: rest)
  | (before, rest) => (targets ++ before, rest)

/-- `promoteDeferredTargets()` -/
def promoteDeferredTargets (m : MSHR) (curTick : ℕ) : Bool × MSHR :=
  if m.targets.targets.isEmpty && m.deferredTargets.targets.isEmpty then (false, m)
  else
    let (targets, deferred) := promoted m.targets.targets m.deferredTargets.targets
    (true,
      { m with
        targets := { m.targets with targets := targets }.populateFlags
        deferredTargets := { m.deferredTargets with targets := deferred }.populateFlags
        order := (targets.head?.map (·.order)).getD m.order
        readyTime := max curTick ((targets.head?.map (·.readyTime)).getD m.readyTime) })

/-- `promoteIf(pred)` -/
def promoteIf (m : MSHR) (pred : Target → Bool) : Except MshrFail MSHR := do
  require .downstreamPending (!m.downstreamPending)
  let deferred := m.deferredTargets.targets
  let moved := TargetList.unmark (deferred.takeWhile pred)
  return { m with
    targets := { m.targets with targets := m.targets.targets ++ moved }
    deferredTargets :=
      { m.deferredTargets with targets := deferred.dropWhile pred }.populateFlags }

/-- The predicate of `promoteReadable`.  The assertion in it holds: only targets from the CPU are
deferred. -/
def readablePred (t : Target) : Bool := !t.pkt.req.isCacheInvalidate && !t.pkt.needsWritable

/-- The predicate of `promoteWritable`. -/
def writablePred (t : Target) : Bool := !t.pkt.req.isCacheInvalidate

/-- `promoteReadable()` -/
def promoteReadable (m : MSHR) : Except MshrFail MSHR :=
  if !m.deferredTargets.targets.isEmpty && !m.postInvalidate then m.promoteIf readablePred
  else .ok m

/-- The condition of `promoteWritable`. -/
def promotesWritable (m : MSHR) : Bool :=
  m.deferredTargets.needsWritable && !(m.postInvalidate || m.postDowngrade) &&
    m.deferredTargets.targets.head?.all fun t => !t.pkt.req.isCacheInvalidate

/-- `promoteWritable()` -/
def promoteWritable (m : MSHR) : Except MshrFail MSHR :=
  if m.promotesWritable then do
    require .targetsNeedWritable (!m.targets.needsWritable)
    let m' : MSHR := { m with targets := { m.targets with needsWritable := true } }
    m'.promoteIf writablePred
  else .ok m

end MSHR

/-! ## The operations in the order of the cache -/

/-- What `recvTimingResp` looks at: the command and request of the response, and the block once it
has been filled. -/
structure Response where
  cmd : MemCmd
  req : RequestFlags := {}
  blkValid : Bool
  blkWritable : Bool
  deriving DecidableEq, Repr

/-- Whether `recvTimingResp` calls `promoteReadable`. -/
def Response.cleans (r : Response) : Bool :=
  r.blkValid && r.cmd.isClean && !r.cmd.isInvalidate

/-- Whether `recvTimingResp` calls `promoteWritable`. -/
def Response.grants (r : Response) : Bool := r.blkWritable && !r.req.isCacheInvalidate

/-- Where the register is: free, allocated, or being handled by `recvTimingResp`, with the next
operation that this is going to apply. -/
inductive Phase where
  | free
  | allocated
  | promoteReadable (r : Response)
  | promoteWritable (r : Response)
  | serviceTargets (r : Response)
  | promoteDeferredTargets (r : Response)
  deriving DecidableEq, Repr

/-- An answer to a target from the CPU: which target it was, and which had been answered when the
request was sent downstream that the response belongs to. -/
structure Answer where
  order : ℕ
  isCacheMaintenance : Bool
  sentAfter : List ℕ
  deriving DecidableEq, Repr

/-- A register in its cache.  The last three fields are a history that the source does not keep:
the targets from the CPU in the order of their arrival, the answers to them, and what had been
answered when the request in service was sent. -/
structure CacheMSHR where
  mshr : MSHR := {}
  phase : Phase := .free
  arrived : List ℕ := []
  answered : List Answer := []
  sentAfter : List ℕ := []
  deriving DecidableEq

/-- The operations on a register; `next` is the next operation of `recvTimingResp`. -/
inductive MshrOp where
  | allocate (blkSize : ℕ) (pkt : MissPacket) (whenReady order : ℕ) (allocOnFill : Bool)
  | allocateTarget (pkt : MissPacket) (whenReady order : ℕ) (allocOnFill : Bool)
  | handleSnoop (pkt : MissPacket) (curTick order : ℕ)
  | markInService (isForward pendingModifiedResp : Bool)
  | setDownstreamPending
  | clearDownstreamPending
  | recvTimingResp (r : Response)
  | next (curTick : ℕ)

namespace CacheMSHR

/-- The answers that serving a list of targets gives. -/
def answers (sentAfter : List ℕ) (ts : List Target) : List Answer :=
  (ts.filter (·.source = .FromCPU)).map fun t => ⟨t.order, t.pkt.req.isCacheMaintenance, sentAfter⟩

/-- The start of `recvTimingResp`. -/
def receive (s : CacheMSHR) (r : Response) : Except MshrFail CacheMSHR := do
  require .notAResponse r.cmd.isResponse
  require .noTargets (!s.mshr.targets.targets.isEmpty)
  require .wholeLineWriteNotInvalidating (!s.mshr.wasWholeLineWrite || r.cmd.isInvalidate)
  return { s with phase := .promoteReadable r }

/-- `serviceMSHRTargets`, as far as the register is concerned. -/
def serve (s : CacheMSHR) (r : Response) : Except MshrFail CacheMSHR := do
  let (ready, mshr) ← s.mshr.extractServiceableTargets r.cmd
  return { s with
    mshr := mshr
    phase := .promoteDeferredTargets r
    answered := s.answered ++ answers s.sentAfter ready.targets }

/-- The end of `recvTimingResp`: the register goes back to the ready list or is freed. -/
def finish (s : CacheMSHR) (curTick : ℕ) : Except MshrFail CacheMSHR :=
  match s.mshr.promoteDeferredTargets curTick with
  | (true, mshr) => do
      require .notInService mshr.inService
      return { s with mshr := { mshr with inService := false }, phase := .allocated }
  | (false, mshr) => do
      let mshr ← mshr.deallocate
      return { s with mshr := mshr, phase := .free }

/-- One operation on an allocated register. -/
def operate (s : CacheMSHR) : MshrOp → Except MshrFail CacheMSHR
  | .allocateTarget pkt whenReady order allocOnFill => do
      let mshr ← s.mshr.allocateTarget pkt whenReady order allocOnFill
      return { s with mshr := mshr, arrived := s.arrived ++ [order] }
  | .handleSnoop pkt curTick order => do
      let (_, _, mshr) ← s.mshr.handleSnoop pkt curTick order
      return { s with mshr := mshr }
  | .markInService isForward pendingModifiedResp => do
      let mshr ← { s.mshr with isForward := isForward }.markInService pendingModifiedResp
      return { s with mshr := mshr, sentAfter := s.answered.map (·.order) }
  | .setDownstreamPending => .ok { s with mshr := { s.mshr with downstreamPending := true } }
  | .clearDownstreamPending => do
      let mshr ← s.mshr.clearDownstreamPending
      return { s with mshr := mshr }
  | .recvTimingResp r => do
      require .notInService s.mshr.inService
      s.receive r
  | _ => .error .wrongOrder

/-- The first target of a free register; a prefetch does not come from the CPU. -/
def start (s : CacheMSHR) : MshrOp → Except MshrFail CacheMSHR
  | .allocate blkSize pkt whenReady order allocOnFill => do
      let mshr ← s.mshr.allocate blkSize pkt whenReady order allocOnFill
      let arriving := if pkt.cmd = .HardPFReq then [] else [order]
      return { s with mshr := mshr, phase := .allocated, arrived := s.arrived ++ arriving }
  | _ => .error .wrongOrder

/-- One operation.  Nothing comes between the operations of `recvTimingResp`. -/
def step (s : CacheMSHR) (op : MshrOp) : Except MshrFail CacheMSHR :=
  match s.phase, op with
  | .free, op => s.start op
  | .allocated, op => s.operate op
  | .promoteReadable r, .next _ => do
      let mshr ← if r.cleans then s.mshr.promoteReadable else .ok s.mshr
      return { s with mshr := mshr, phase := .promoteWritable r }
  | .promoteWritable r, .next _ => do
      let mshr ← if r.grants then s.mshr.promoteWritable else .ok s.mshr
      return { s with mshr := mshr, phase := .serviceTargets r }
  | .serviceTargets r, .next _ => s.serve r
  | .promoteDeferredTargets _, .next curTick => s.finish curTick
  | _, _ => .error .wrongOrder

end CacheMSHR

end Gem5.Mem
