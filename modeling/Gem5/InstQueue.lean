/-
# The instruction queue

Embedding of `cpu/o3/inst_queue.cc`, with the flags of `DynInst` that the queue reads and writes.
An instruction takes a slot of the queue when it is inserted and gives it back when it issues, when
its memory access completes, or when it is squashed; until all its source registers are written it
waits in the chains of the dependency graph, and then in the ready lists.

The function units, the memory dependence unit and the rest of the pipeline are not part of the
queue: which unit answers, which memory instruction may go and which flag is raised are inputs.
-/
import Gem5.DependencyGraph
import Gem5.ReadyLists

namespace Gem5

open Runs

namespace Iq

/-! ## Instructions -/

/-- `PhysRegId`, as far as the queue looks at it. -/
structure PhysReg (regs : ℕ) where
  flatIndex : Fin regs
  isFixedMapping : Bool := false
  deriving DecidableEq, Repr

/-- What does not change of a `DynInst` once it is renamed: the flags of its `StaticInst`, and its
registers. -/
structure DynInst (threads regs : ℕ) where
  threadNumber : Fin threads
  opClass : OpClass := No_OpClass
  isLoad : Bool := false
  isStore : Bool := false
  isAtomic : Bool := false
  isStoreConditional : Bool := false
  isNonSpeculative : Bool := false
  isReadBarrier : Bool := false
  isWriteBarrier : Bool := false
  srcRegs : List (PhysReg regs) := []
  destRegs : List (PhysReg regs) := []
  deriving DecidableEq, Repr

namespace DynInst

variable {threads regs : ℕ}

/-- `StaticInst::isMemRef` -/
def isMemRef (i : DynInst threads regs) : Bool := i.isLoad || i.isStore || i.isAtomic

/-- `StaticInst::isFullMemBarrier` -/
def isFullMemBarrier (i : DynInst threads regs) : Bool := i.isReadBarrier && i.isWriteBarrier

/-- The test of `doSquash` for the instructions that it removes from the dependency graph:
`is_acq_rel`, or none of the flags of an instruction that waits for commit. -/
def removedFromGraph (i : DynInst threads regs) : Bool :=
  let is_acq_rel := i.isFullMemBarrier && (i.isLoad || (i.isStore && !i.isStoreConditional))
  is_acq_rel || (!i.isNonSpeculative && !i.isStoreConditional && !i.isAtomic &&
    !i.isReadBarrier && !i.isWriteBarrier)

end DynInst

/-- What changes of a `DynInst`. -/
structure Status where
  readySrcIdx : ℕ → Bool := fun _ => false
  readyRegs : ℕ := 0
  canIssue : Bool := false
  issued : Bool := false
  atCommit : Bool := false
  canCommit : Bool := false
  squashed : Bool := false
  squashedInIQ : Bool := false
  inIQ : Bool := false
  memOpDone : Bool := false
  completed : Bool := false
  faulted : Bool := false
  translationCompleted : Bool := false

namespace Status

/-- `DynInst::markSrcRegReady()`, of an instruction with `numSrcRegs` source registers. -/
def markSrcRegReady (numSrcRegs : ℕ) (s : Status) : Status :=
  { s with
    readyRegs := s.readyRegs + 1
    canIssue := s.canIssue || s.readyRegs + 1 = numSrcRegs }

/-- `DynInst::markSrcRegReady(src_idx)` -/
def markSrcIdxReady (numSrcRegs : ℕ) (src_idx : ℕ) (s : Status) : Status :=
  { s with readySrcIdx := Function.update s.readySrcIdx src_idx true }.markSrcRegReady numSrcRegs

/-- An instruction as decode and rename hand it over, when rename found the source registers
`ready` ready. -/
def renamed {threads regs : ℕ} (i : DynInst threads regs) (ready : ℕ → Bool) : Status :=
  let readyRegs := i.srcRegs.zipIdx.countP fun s => ready s.2
  { readySrcIdx := ready, readyRegs := readyRegs, canIssue := readyRegs = i.srcRegs.length }

end Status

/-! ## The queue -/

/-- The sizes of the queue, and the instruction behind each sequence number. -/
structure Params (threads regs : ℕ) where
  numEntries : ℕ
  totalWidth : ℕ
  code : InstSeqNum → DynInst threads regs

/-- The assertions and panics of the queue. -/
inductive Fault where
  /-- a fault of the ready lists -/
  | ready (f : ReadyLists.Fault)
  /-- `assert(freeEntries != 0)` -/
  | noFreeEntries
  /-- `panic("Dependency graph ... not empty!")` in `addToProducers` -/
  | graphNotEmpty
  /-- `assert(issuing_inst->seqNum == (*order_it).oldestInst)` -/
  | orderMismatch
  /-- the loop of `scheduleReadyInsts` did not end in the steps it was given -/
  | outOfFuel
  /-- `assert(inst_it != nonSpecInsts.end())` in `scheduleNonSpec` -/
  | notNonSpec
  /-- `assert(!completed_inst->isSquashed())` in `wakeDependents` -/
  | wokenBySquashed
  /-- `assert(curr != NULL)` in `DependencyGraph::remove` -/
  | removePastEnd
  /-- `assert(getFault() != NoFault || isMemRef())` in `doSquash` -/
  | nonSpecLost
  /-- `assert(dependGraph.empty(dest_reg->flatIndex()))` in `doSquash` -/
  | producerAwaited
  /-- `assert(!instsToExecute.empty())` -/
  | nothingToExecute
  deriving DecidableEq, Repr

/-- The state of `InstructionQueue`, and its history: `entered` lists the instructions that took a
slot, `freed` those that gave one back, and `inGraph` marks those whose sources `addToDependents`
looked at. -/
structure InstructionQueue (threads regs : ℕ) where
  status : InstSeqNum → Status
  freeEntries : ℕ
  count : Fin threads → ℤ
  instList : Fin threads → List InstSeqNum
  ready : ReadyLists
  nonSpecInsts : InstSeqNum → Bool
  dependGraph : DependencyGraph regs
  regScoreboard : Fin regs → Bool
  numPinnedWritesToComplete : Fin regs → ℤ
  deferredMemInsts : List InstSeqNum
  blockedMemInsts : List InstSeqNum
  retryMemInsts : List InstSeqNum
  instsToExecute : List InstSeqNum
  wbOutstanding : ℤ
  entered : List InstSeqNum
  freed : List InstSeqNum
  inGraph : InstSeqNum → Bool

namespace InstructionQueue

variable {threads regs : ℕ} (p : Params threads regs)

/-- `InstructionQueue::resetState` -/
def init : InstructionQueue threads regs where
  status _ := {}
  freeEntries := p.numEntries
  count _ := 0
  instList _ := []
  ready := .init
  nonSpecInsts _ := false
  dependGraph := .init
  regScoreboard _ := false
  numPinnedWritesToComplete _ := 0
  deferredMemInsts := []
  blockedMemInsts := []
  retryMemInsts := []
  instsToExecute := []
  wbOutstanding := 0
  entered := []
  freed := []
  inGraph _ := false

/-- A write to the flags of an instruction. -/
def setStatus (w : InstructionQueue threads regs) (inst : InstSeqNum) (f : Status → Status) :
    InstructionQueue threads regs :=
  { w with status := Function.update w.status inst (f (w.status inst)) }

@[simp] theorem setStatus_self {w : InstructionQueue threads regs} {x : InstSeqNum}
    (f : Status → Status) : (w.setStatus x f).status x = f (w.status x) :=
  Function.update_self ..

@[simp] theorem setStatus_of_ne {w : InstructionQueue threads regs} {x y : InstSeqNum}
    (f : Status → Status) (h : y ≠ x) : (w.setStatus x f).status y = w.status y :=
  Function.update_of_ne h ..

/-- `++freeEntries; count[tid]--` -/
def freeSlot (w : InstructionQueue threads regs) (inst : InstSeqNum) :
    InstructionQueue threads regs :=
  let tid := (p.code inst).threadNumber
  { w with
    freeEntries := w.freeEntries + 1
    count := Function.update w.count tid (w.count tid - 1)
    freed := w.freed ++ [inst] }

/-! ## Ready instructions -/

/-- What `addIfReady` and `addReadyMemInst` do with an instruction that may issue. -/
def addReady (w : InstructionQueue threads regs) (inst : InstSeqNum) :
    Except Fault (InstructionQueue threads regs) := do
  let ready ← (w.ready.add (p.code inst).opClass inst).mapError .ready
  return { w with ready }

/-- `InstructionQueue::addReadyMemInst` -/
def addReadyMemInst (w : InstructionQueue threads regs) (ready_inst : InstSeqNum) :
    Except Fault (InstructionQueue threads regs) :=
  w.addReady p ready_inst

/-- `InstructionQueue::addIfReady`; a memory instruction is left to the memory dependence unit. -/
def addIfReady (w : InstructionQueue threads regs) (inst : InstSeqNum) :
    Except Fault (InstructionQueue threads regs) :=
  if (w.status inst).canIssue then
    if (p.code inst).isMemRef then .ok w else w.addReady p inst
  else .ok w

/-- How `insert` and `scheduleNonSpec` make an instruction ready; the memory dependence unit decides
for the memory instructions. -/
def offer (w : InstructionQueue threads regs) (inst : InstSeqNum) :
    Except Fault (InstructionQueue threads regs) :=
  if (p.code inst).isMemRef then .ok w else w.addIfReady p inst

/-! ## Insertion -/

/-- One source register of `addToDependents`. -/
def addDependent (new_inst : InstSeqNum) (w : InstructionQueue threads regs)
    (src : PhysReg regs × ℕ) : InstructionQueue threads regs :=
  if (w.status new_inst).readySrcIdx src.2 then w
  else if src.1.isFixedMapping then w
  else if w.regScoreboard src.1.flatIndex then
    w.setStatus new_inst (.markSrcIdxReady (p.code new_inst).srcRegs.length src.2)
  else { w with dependGraph := w.dependGraph.insert src.1.flatIndex new_inst }

/-- `InstructionQueue::addToDependents` -/
def addToDependents (w : InstructionQueue threads regs) (new_inst : InstSeqNum) :
    InstructionQueue threads regs :=
  (p.code new_inst).srcRegs.zipIdx.foldl (addDependent p new_inst)
    { w with inGraph := Function.update w.inGraph new_inst true }

/-- One destination register of `addToProducers`. -/
def addProducer (new_inst : InstSeqNum) (w : InstructionQueue threads regs) (dest : PhysReg regs) :
    Except Fault (InstructionQueue threads regs) :=
  if dest.isFixedMapping then .ok w
  else if (w.dependGraph.chain dest.flatIndex).isEmpty then
    .ok { w with
      dependGraph := w.dependGraph.setInst dest.flatIndex new_inst
      regScoreboard := Function.update w.regScoreboard dest.flatIndex false }
  else .error .graphNotEmpty

/-- `InstructionQueue::addToProducers` -/
def addToProducers (w : InstructionQueue threads regs) (new_inst : InstSeqNum) :
    Except Fault (InstructionQueue threads regs) :=
  (p.code new_inst).destRegs.foldlM (addProducer new_inst) w

/-- How `insert` and `insertNonSpec` begin: an instruction from rename takes a slot. -/
def enter (w : InstructionQueue threads regs) (new_inst : InstSeqNum) (readySrc : ℕ → Bool) :
    Except Fault (InstructionQueue threads regs) := do
  require .noFreeEntries (w.freeEntries ≠ 0)
  let tid := (p.code new_inst).threadNumber
  return { w with
    instList := Function.update w.instList tid (w.instList tid ++ [new_inst])
    freeEntries := w.freeEntries - 1
    status := Function.update w.status new_inst
      { Status.renamed (p.code new_inst) readySrc with inIQ := true }
    entered := w.entered ++ [new_inst] }

/-- `count[new_inst->threadNumber]++` -/
def countInst (w : InstructionQueue threads regs) (new_inst : InstSeqNum) :
    InstructionQueue threads regs :=
  let tid := (p.code new_inst).threadNumber
  { w with count := Function.update w.count tid (w.count tid + 1) }

/-- `InstructionQueue::insert` -/
def insert (w : InstructionQueue threads regs) (new_inst : InstSeqNum) (readySrc : ℕ → Bool) :
    Except Fault (InstructionQueue threads regs) := do
  let w ← w.enter p new_inst readySrc
  let w ← (w.addToDependents p new_inst).addToProducers p new_inst
  let w ← w.offer p new_inst
  return w.countInst p new_inst

/-- `InstructionQueue::insertNonSpec`, and `insertBarrier`, which tells the memory dependence unit
first. -/
def insertNonSpec (w : InstructionQueue threads regs) (new_inst : InstSeqNum)
    (readySrc : ℕ → Bool) : Except Fault (InstructionQueue threads regs) := do
  let nonSpecInsts := Function.update w.nonSpecInsts new_inst true
  let w ← { w with nonSpecInsts }.enter p new_inst readySrc
  let w ← w.addToProducers p new_inst
  return w.countInst p new_inst

/-! ## Issue -/

/-- What the function unit pool answers: `FUPool::getUnit`, with the latency of the operation and
whether the unit is pipelined. -/
inductive FUAnswer where
  | NoCapableFU
  | NoFreeFU
  | unit (opLatency : ℕ)
  deriving DecidableEq, Repr

/-- An instruction that takes one cycle executes in the next; a longer one completes later. -/
def sendToExecute (w : InstructionQueue threads regs) (inst : InstSeqNum) (idx : FUAnswer) :
    InstructionQueue threads regs :=
  match idx with
  | .NoCapableFU | .NoFreeFU | .unit 1 => { w with instsToExecute := w.instsToExecute ++ [inst] }
  | .unit _ => { w with wbOutstanding := w.wbOutstanding + 1 }

/-- `setIssued()`; a memory instruction keeps its slot until it completes. -/
def markIssued (w : InstructionQueue threads regs) (inst : InstSeqNum) :
    InstructionQueue threads regs :=
  let w := w.setStatus inst fun s => { s with issued := true }
  if (p.code inst).isMemRef then w
  else (w.freeSlot p inst).setStatus inst fun s => { s with inIQ := false }

/-- An instruction that got a unit, or needs none, issues: `order_it` is where its class stands. -/
def issue (w : InstructionQueue threads regs) (order_it : ℕ) (op_class : OpClass)
    (inst : InstSeqNum) (idx : FUAnswer) : Except Fault (InstructionQueue threads regs) := do
  let w := w.sendToExecute inst idx
  let ready ← (w.ready.takeTop order_it op_class).mapError .ready
  return { w with ready }.markIssued p inst

/-- The loop of `scheduleReadyInsts`, which gives the instructions issued in their order; `fu` is
what the pool answers to each visit of an entry. -/
def scheduleLoop (fu : ℕ → FUAnswer) : ℕ → ℕ → ℕ → List InstSeqNum →
    InstructionQueue threads regs → Except Fault (InstructionQueue threads regs × List InstSeqNum)
  | 0, _, _, _, _ => .error .outOfFuel
  | fuel + 1, visit, order_it, issued, w =>
    if issued.length < p.totalWidth then
      match w.ready.listOrder[order_it]? with
      | none => .ok (w, issued)
      | some entry => do
        let issuing_inst ← (w.ready.top entry.queueType).mapError .ready
        require .orderMismatch (issuing_inst = entry.oldestInst)
        if (w.status issuing_inst).squashed then
          let ready ← (w.ready.takeTop order_it entry.queueType).mapError .ready
          scheduleLoop fu fuel (visit + 1) order_it issued { w with ready }
        else
          let idx := if entry.queueType = No_OpClass then .NoCapableFU else fu visit
          if idx = .NoFreeFU then
            scheduleLoop fu fuel (visit + 1) (order_it + 1) issued w
          else
            let w ← w.issue p order_it entry.queueType issuing_inst idx
            scheduleLoop fu fuel (visit + 1) order_it (issued ++ [issuing_inst]) w
    else .ok (w, issued)

/-- The instructions that `getDeferredMemInstToExecute` and `getBlockedMemInstToExecute` return,
one after the other. -/
def memInstsToExecute (w : InstructionQueue threads regs) : List InstSeqNum :=
  w.deferredMemInsts.filter (fun x => (w.status x).translationCompleted || (w.status x).squashed) ++
    w.retryMemInsts

/-- How `scheduleReadyInsts` begins: the memory instructions that were put off are ready again. -/
def addMemInsts (w : InstructionQueue threads regs) :
    Except Fault (InstructionQueue threads regs) :=
  w.memInstsToExecute.foldlM (addReadyMemInst p)
    { w with
      deferredMemInsts := w.deferredMemInsts.filter fun x =>
        !((w.status x).translationCompleted || (w.status x).squashed)
      retryMemInsts := [] }

/-- `InstructionQueue::scheduleReadyInsts`, with the instructions that it issues. -/
def scheduleReadyInsts (w : InstructionQueue threads regs) (fu : ℕ → FUAnswer) :
    Except Fault (InstructionQueue threads regs × List InstSeqNum) := do
  let w ← w.addMemInsts p
  scheduleLoop p fu (w.ready.work 0 + 1) 0 0 [] w

/-- `InstructionQueue::scheduleNonSpec` -/
def scheduleNonSpec (w : InstructionQueue threads regs) (inst : InstSeqNum) :
    Except Fault (InstructionQueue threads regs) := do
  require .notNonSpec (w.nonSpecInsts inst)
  let w ← (w.setStatus inst fun s => { s with atCommit := true, canIssue := true }).offer p inst
  return { w with nonSpecInsts := Function.update w.nonSpecInsts inst false }

/-! ## Completion -/

/-- The dependents of one register are woken, the newest first. -/
def wakeChain (idx : Fin regs) :
    List InstSeqNum → InstructionQueue threads regs → Except Fault (InstructionQueue threads regs)
  | [], w => .ok w
  | dep_inst :: rest, w => do
    let w := { w with dependGraph := w.dependGraph.pop idx }
    let w := w.setStatus dep_inst (.markSrcRegReady (p.code dep_inst).srcRegs.length)
    let w ← w.addIfReady p dep_inst
    wakeChain idx rest w

/-- One destination register of `wakeDependents`. -/
def wakeDest (w : InstructionQueue threads regs) (dest : PhysReg regs) :
    Except Fault (InstructionQueue threads regs) :=
  let idx := dest.flatIndex
  if dest.isFixedMapping then .ok w
  else do
    let toComplete := w.numPinnedWritesToComplete idx - 1
    let w := { w with
      numPinnedWritesToComplete := Function.update w.numPinnedWritesToComplete idx toComplete }
    if toComplete ≠ 0 then return w
    else
      let w ← wakeChain p idx (w.dependGraph.chain idx) w
      return { w with
        dependGraph := w.dependGraph.clearInst idx
        regScoreboard := Function.update w.regScoreboard idx true }

/-- `InstructionQueue::wakeDependents` -/
def wakeDependents (w : InstructionQueue threads regs) (completed_inst : InstSeqNum) :
    Except Fault (InstructionQueue threads regs) := do
  require .wokenBySquashed (!(w.status completed_inst).squashed)
  let w := if (p.code completed_inst).isMemRef then
      (w.freeSlot p completed_inst).setStatus completed_inst fun s => { s with memOpDone := true }
    else w
  (p.code completed_inst).destRegs.foldlM (wakeDest p) w

/-- `InstructionQueue::blockMemInst` -/
def blockMemInst (w : InstructionQueue threads regs) (inst : InstSeqNum) :
    InstructionQueue threads regs :=
  let w := w.setStatus inst fun s => { s with issued := false, canIssue := false }
  { w with blockedMemInsts := w.blockedMemInsts ++ [inst] }

/-- `InstructionQueue::cacheUnblocked` -/
def cacheUnblocked (w : InstructionQueue threads regs) : InstructionQueue threads regs :=
  { w with retryMemInsts := w.retryMemInsts ++ w.blockedMemInsts, blockedMemInsts := [] }

/-! ## Squash and commit -/

/-- One source register of an instruction that `doSquash` removes from the graph. -/
def removeSource (inst : InstSeqNum) (w : InstructionQueue threads regs) (src : PhysReg regs × ℕ) :
    Except Fault (InstructionQueue threads regs) :=
  if (w.status inst).readySrcIdx src.2 || src.1.isFixedMapping then .ok w
  else match w.dependGraph.remove src.1.flatIndex inst with
    | some dependGraph => .ok { w with dependGraph }
    | none => .error .removePastEnd

/-- What `doSquash` takes an instruction out of: the dependency graph, or `nonSpecInsts`. -/
def unregister (w : InstructionQueue threads regs) (inst : InstSeqNum) :
    Except Fault (InstructionQueue threads regs) :=
  let i := p.code inst
  if i.removedFromGraph then i.srcRegs.zipIdx.foldlM (removeSource inst) w
  else if !i.isStoreConditional || !(w.status inst).completed then
    if w.nonSpecInsts inst then
      .ok { w with nonSpecInsts := Function.update w.nonSpecInsts inst false }
    else do
      require .nonSpecLost ((w.status inst).faulted || i.isMemRef)
      return w
  else .ok w

/-- Whether a squash finds an instruction in the queue still. -/
def unfinished (w : InstructionQueue threads regs) (inst : InstSeqNum) : Bool :=
  !(w.status inst).issued || ((p.code inst).isMemRef && !(w.status inst).memOpDone)

/-- One destination register of an instruction that is squashed. -/
def clearProducer (w : InstructionQueue threads regs) (dest : PhysReg regs) :
    Except Fault (InstructionQueue threads regs) :=
  if dest.isFixedMapping then .ok w
  else do
    require .producerAwaited (w.dependGraph.chain dest.flatIndex).isEmpty
    return { w with dependGraph := w.dependGraph.clearInst dest.flatIndex }

/-- What `doSquash` does with an instruction that is in the queue still: it leaves. -/
def leave (w : InstructionQueue threads regs) (inst : InstSeqNum) :
    Except Fault (InstructionQueue threads regs) :=
  if w.unfinished p inst then do
    let w ← w.unregister p inst
    let w := w.setStatus inst fun s => { s with
      squashedInIQ := true, squashed := true, issued := true, canCommit := true, inIQ := false }
    return w.freeSlot p inst
  else .ok w

/-- What `doSquash` does with one instruction. -/
def squashInst (w : InstructionQueue threads regs) (inst : InstSeqNum) :
    Except Fault (InstructionQueue threads regs) := do
  let w ← w.leave p inst
  (p.code inst).destRegs.foldlM clearProducer w

/-- The loop of `doSquash` over the instructions of a thread, the youngest first; the second result
is what is left of them. -/
def squashLoop (tid : Fin threads) (squashedSeqNum : InstSeqNum) :
    List InstSeqNum → InstructionQueue threads regs →
      Except Fault (InstructionQueue threads regs × List InstSeqNum)
  | [], w => .ok (w, [])
  | inst :: rest, w =>
    if squashedSeqNum < inst then
      if (p.code inst).threadNumber ≠ tid || (w.status inst).squashedInIQ then do
        let (w, left) ← squashLoop tid squashedSeqNum rest w
        return (w, inst :: left)
      else do
        let w ← w.squashInst p inst
        squashLoop tid squashedSeqNum rest w
    else .ok (w, inst :: rest)

/-- `InstructionQueue::squash`, down to the sequence number that commit sent. -/
def squash (w : InstructionQueue threads regs) (tid : Fin threads) (squashedSeqNum : InstSeqNum) :
    Except Fault (InstructionQueue threads regs) := do
  let (w, left) ← squashLoop p tid squashedSeqNum (w.instList tid).reverse w
  return { w with instList := Function.update w.instList tid left.reverse }

/-- `InstructionQueue::commit` -/
def commit (w : InstructionQueue threads regs) (inst : InstSeqNum) (tid : Fin threads) :
    InstructionQueue threads regs :=
  { w with instList := Function.update w.instList tid ((w.instList tid).dropWhile (· ≤ inst)) }

/-! ## The queue as a machine -/

/-- The flags that the rest of the pipeline raises. -/
inductive Flag where
  | Squashed
  | Completed
  | Faulted
  | TranslationCompleted
  deriving DecidableEq, Repr

/-- What happens to the queue: the calls of the other stages and of the memory dependence unit, and
what the pipeline does to an instruction in between.  `addIfReady` is private to the queue; it is
listed for runs that call it in any order; `holdMemInst` is `MemDepUnit::insert` clearing
`canIssue`. -/
inductive Op (threads regs : ℕ) where
  | insert (inst : InstSeqNum) (readySrc : ℕ → Bool)
  | insertNonSpec (inst : InstSeqNum) (readySrc : ℕ → Bool)
  | addIfReady (inst : InstSeqNum)
  | addReadyMemInst (inst : InstSeqNum)
  | scheduleReadyInsts (fu : ℕ → FUAnswer)
  | scheduleNonSpec (inst : InstSeqNum)
  | wakeDependents (inst : InstSeqNum)
  | deferMemInst (inst : InstSeqNum)
  | blockMemInst (inst : InstSeqNum)
  | rescheduleMemInst (inst : InstSeqNum)
  | holdMemInst (inst : InstSeqNum)
  | cacheUnblocked
  | commit (inst : InstSeqNum) (tid : Fin threads)
  | squash (tid : Fin threads) (squashedSeqNum : InstSeqNum)
  | processFUCompletion (inst : InstSeqNum)
  | getInstToExecute
  | raiseFlag (inst : InstSeqNum) (flag : Flag)
  | pinReg (idx : Fin regs) (numWrites : ℤ)

/-- `DynInst::setSquashed`, `setCompleted`, a fault, `translationCompleted(true)` -/
def Flag.set (s : Status) : Flag → Status
  | .Squashed => { s with squashed := true }
  | .Completed => { s with completed := true }
  | .Faulted => { s with faulted := true }
  | .TranslationCompleted => { s with translationCompleted := true }

/-- One step of the queue. -/
def step (w : InstructionQueue threads regs) :
    Op threads regs → Except Fault (InstructionQueue threads regs)
  | .insert inst readySrc => w.insert p inst readySrc
  | .insertNonSpec inst readySrc => w.insertNonSpec p inst readySrc
  | .addIfReady inst => w.addIfReady p inst
  | .addReadyMemInst inst => w.addReadyMemInst p inst
  | .scheduleReadyInsts fu => (w.scheduleReadyInsts p fu).map Prod.fst
  | .scheduleNonSpec inst => w.scheduleNonSpec p inst
  | .wakeDependents inst => w.wakeDependents p inst
  | .deferMemInst inst => .ok { w with deferredMemInsts := w.deferredMemInsts ++ [inst] }
  | .blockMemInst inst => .ok (w.blockMemInst inst)
  | .rescheduleMemInst inst => .ok (w.setStatus inst fun s =>
      { s with translationCompleted := false, canIssue := false })
  | .holdMemInst inst => .ok (w.setStatus inst fun s => { s with canIssue := false })
  | .cacheUnblocked => .ok w.cacheUnblocked
  | .commit inst tid => .ok (w.commit inst tid)
  | .squash tid squashedSeqNum => w.squash p tid squashedSeqNum
  | .processFUCompletion inst => .ok { w with
      wbOutstanding := w.wbOutstanding - 1, instsToExecute := w.instsToExecute ++ [inst] }
  | .getInstToExecute => do
      require .nothingToExecute (!w.instsToExecute.isEmpty)
      return { w with instsToExecute := w.instsToExecute.tail }
  | .raiseFlag inst flag => .ok (w.setStatus inst fun s => flag.set s)
  | .pinReg idx numWrites => .ok { w with
      numPinnedWritesToComplete := Function.update w.numPinnedWritesToComplete idx numWrites }

end InstructionQueue

end Iq

end Gem5
