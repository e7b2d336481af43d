/-
# Removing a thread from the processor

Embedding of `CPU::haltContext`, `CPU::removeThread` and `CPU::exitThreads` (`cpu/o3/cpu.cc`)
over the five time buffers between the stages.  The variables that the stages keep for a thread
are cleared for the removed thread alone, but the buffers are shared, and they are flushed.

What the stages compute in a cycle is not modelled: a cycle is any writes to the buffers that
treat the threads separately, and what a stage receives for a thread is what its wires show of
that thread.  Of the stages' state only the counters of rename are followed, which the
information from dispatch decrements.

`removal_undisturbed_iff` says when a removal is invisible to another thread: exactly when
nothing of that thread is in flight in the buffers.
-/
import Gem5.TimeBuffer
import Gem5.Types
import Gem5.FetchPort

open Runs

namespace Gem5.Pipeline

/-! ## What is passed between the stages -/

/-- A dynamic instruction, as far as it matters between two stages. -/
structure DynInst (n : ℕ) where
  tid : Fin n
  seqNum : InstSeqNum
  isLoad : Bool
  isStore : Bool
  isAtomic : Bool
  deriving DecidableEq, Repr

/-- `FetchStruct`, `DecodeStruct` and `RenameStruct`: the instructions a stage sends on. -/
structure InstStruct (n : ℕ) where
  insts : List (DynInst n)
  deriving DecidableEq, Inhabited

/-- The entries of `IEWStruct` for one thread. -/
structure IEWComm where
  mispredictInst : Option InstSeqNum
  mispredPC : BitVec 64
  squashedSeqNum : InstSeqNum
  pc : BitVec 64
  squash : Bool
  branchMispredict : Bool
  branchTaken : Bool
  includeSquashInst : Bool
  deriving DecidableEq, Inhabited

/-- `IEWStruct` -/
structure IEWStruct (n : ℕ) where
  insts : List (DynInst n)
  thread : Fin n → IEWComm
  deriving Inhabited

/-- `TimeStruct::DecodeComm` and the signals of decode. -/
structure DecodeComm where
  nextPC : BitVec 64
  mispredictInst : Option InstSeqNum
  squashInst : Option InstSeqNum
  doneSeqNum : InstSeqNum
  mispredPC : BitVec 64
  squash : Bool
  branchMispredict : Bool
  branchTaken : Bool
  decodeBlock : Bool
  decodeUnblock : Bool
  deriving DecidableEq, Inhabited

/-- The signals of rename. -/
structure RenameComm where
  renameBlock : Bool
  renameUnblock : Bool
  deriving DecidableEq, Inhabited

/-- `TimeStruct::IewComm` and the signals of IEW. -/
structure IewComm where
  freeIQEntries : ℕ
  freeLQEntries : ℕ
  freeSQEntries : ℕ
  dispatchedToLQ : ℕ
  dispatchedToSQ : ℕ
  iqCount : ℕ
  ldstqCount : ℕ
  dispatched : ℕ
  usedIQ : Bool
  usedLSQ : Bool
  iewBlock : Bool
  iewUnblock : Bool
  deriving DecidableEq, Inhabited

/-- `TimeStruct::CommitComm` -/
structure CommitComm where
  pc : BitVec 64
  mispredictInst : Option InstSeqNum
  squashInst : Option InstSeqNum
  strictlyOrderedLoad : Option InstSeqNum
  nonSpecSeqNum : InstSeqNum
  doneSeqNum : InstSeqNum
  freeROBEntries : ℕ
  squash : Bool
  robSquashing : Bool
  usedROB : Bool
  emptyROB : Bool
  branchTaken : Bool
  interruptPending : Bool
  clearInterrupt : Bool
  strictlyOrdered : Bool
  deriving DecidableEq, Inhabited

/-- The entries of `TimeStruct` for one thread. -/
structure ThreadSignals where
  decodeInfo : DecodeComm
  renameInfo : RenameComm
  iewInfo : IewComm
  commitInfo : CommitComm
  deriving DecidableEq, Inhabited

/-- `TimeStruct`: all backwards communication. -/
structure TimeStruct (n : ℕ) where
  thread : Fin n → ThreadSignals
  deriving Inhabited

/-! ## The processor -/

/-- `Commit::ThreadStatus` -/
inductive CommitStatus where
  | Running
  | Idle
  | ROBSquashing
  | TrapPending
  | FetchTrapPending
  | SquashAfterPending
  deriving DecidableEq, Repr

/-- `Decode::ThreadStatus` -/
inductive DecodeStatus where
  | Running
  | Idle
  | StartSquash
  | Squashing
  | Blocked
  | Unblocking
  deriving DecidableEq, Repr

/-- `Rename::ThreadStatus` -/
inductive RenameStatus where
  | Running
  | Idle
  | StartSquash
  | Squashing
  | Blocked
  | Unblocking
  | SerializeStall
  deriving DecidableEq, Repr

/-- `Rename::FreeEntries` -/
structure FreeEntries where
  iqEntries : ℕ
  lqEntries : ℕ
  sqEntries : ℕ
  robEntries : ℕ
  deriving DecidableEq, Repr

/-- The instructions that rename has sent and that have not been dispatched yet. -/
structure InProgress where
  instsInProgress : ℤ
  loadsInProgress : ℤ
  storesInProgress : ℤ
  deriving DecidableEq, Repr

/-- The variables of commit for one thread. -/
structure CommitThread where
  commitStatus : CommitStatus
  changedROBNumEntries : Bool
  checkEmptyROB : Bool
  trapInFlight : Bool
  committedStores : Bool
  trapSquash : Bool
  tcSquash : Bool
  pc : BitVec 64
  lastCommitedSeqNum : InstSeqNum
  squashAfterInst : Option InstSeqNum

/-- The variables of fetch for one thread. -/
structure FetchThread where
  fetchStatus : Frontend.ThreadStatus
  pc : BitVec 64
  fetchOffset : ℕ
  hasMacroop : Bool
  delayedCommit : Bool
  hasMemReq : Bool
  stallsDecode : Bool
  stallsDrain : Bool
  fetchBufferPC : BitVec 64
  fetchBufferValid : Bool
  fetchQueue : List InstSeqNum

/-- The variables of decode for one thread. -/
structure DecodeThread where
  decodeStatus : DecodeStatus
  stallsRename : Bool

/-- The variables of rename for one thread. -/
structure RenameThread where
  renameStatus : RenameStatus
  freeEntries : FreeEntries
  emptyROB : Bool
  stallsIew : Bool
  serializeInst : Option InstSeqNum
  inProgress : InProgress
  serializeOnNextInst : Bool

/-- The processor: the buffers between the stages, the variables of the stages for each thread,
and what a removal reads of the queues. -/
structure CPU (n : ℕ) where
  timeBuffer : TimeBuffer (TimeStruct n)
  fetchQueue : TimeBuffer (InstStruct n)
  decodeQueue : TimeBuffer (InstStruct n)
  renameQueue : TimeBuffer (InstStruct n)
  iewQueue : TimeBuffer (IEWStruct n)
  commit : Fin n → CommitThread
  fetch : Fin n → FetchThread
  decode : Fin n → DecodeThread
  rename : Fin n → RenameThread
  activeThreads : List (Fin n)
  fetchPriorityList : List (Fin n)
  commitPriorityList : List (Fin n)
  pcState : Fin n → BitVec 64
  numFreeEntries : Fin n → FreeEntries
  instQueueCount : Fin n → ℕ
  ldstQueueCount : Fin n → ℕ
  robEmpty : Fin n → Bool
  executingHtmTransaction : Fin n → Bool
  exitingThreads : List (Fin n × Bool)
  halted : Fin n → Bool
  switchedOut : Bool
  idle : Bool

/-- The assertions of a removal. -/
inductive RemovalFail where
  | switchedOut
  | executingHtmTransaction
  | instQueueNotEmpty
  | ldstQueueNotEmpty
  | robNotEmpty
  | noExitingThreads
  deriving DecidableEq, Repr

namespace CPU

variable {n : ℕ}

/-! ### `clearStates` of the stages -/

def commitClearStates (s : CPU n) (tid : Fin n) : CPU n :=
  let cleared : CommitThread :=
    { commitStatus := .Idle
      changedROBNumEntries := false
      checkEmptyROB := false
      trapInFlight := false
      committedStores := false
      trapSquash := false
      tcSquash := false
      pc := 0
      lastCommitedSeqNum := 0
      squashAfterInst := none }
  { s with commit := Function.update s.commit tid cleared }

def fetchClearStates (s : CPU n) (tid : Fin n) : CPU n :=
  let cleared : FetchThread :=
    { fetchStatus := .Running
      pc := s.pcState tid
      fetchOffset := 0
      hasMacroop := false
      delayedCommit := false
      hasMemReq := false
      stallsDecode := false
      stallsDrain := false
      fetchBufferPC := 0
      fetchBufferValid := false
      fetchQueue := [] }
  { s with fetch := Function.update s.fetch tid cleared }

def decodeClearStates (s : CPU n) (tid : Fin n) : CPU n :=
  { s with decode := Function.update s.decode tid ⟨.Idle, false⟩ }

def renameClearStates (s : CPU n) (tid : Fin n) : CPU n :=
  let cleared : RenameThread :=
    { renameStatus := .Idle
      freeEntries := s.numFreeEntries tid
      emptyROB := true
      stallsIew := false
      serializeInst := none
      inProgress := ⟨0, 0, 0⟩
      serializeOnNextInst := false }
  { s with rename := Function.update s.rename tid cleared }

/-- The free entries go to rename through the time buffer. -/
def iewClearStates (s : CPU n) (tid : Fin n) : CPU n :=
  let free := s.numFreeEntries tid
  let report (sig : ThreadSignals) : ThreadSignals :=
    { sig with iewInfo :=
        { sig.iewInfo with
          usedIQ := true
          freeIQEntries := free.iqEntries
          usedLSQ := true
          freeLQEntries := free.lqEntries
          freeSQEntries := free.sqEntries } }
  { s with timeBuffer := s.timeBuffer.modify 0 fun v =>
      ⟨Function.update v.thread tid (report (v.thread tid))⟩ }

/-! ### Removal -/

/-- The loop over the time buffers in `removeThread`. -/
def flushBuffers (s : CPU n) : CPU n :=
  let size := s.timeBuffer.size
  { s with
    timeBuffer := s.timeBuffer.flush size
    fetchQueue := s.fetchQueue.flush size
    decodeQueue := s.decodeQueue.flush size
    renameQueue := s.renameQueue.flush size
    iewQueue := s.iewQueue.flush size }

/-- `removeThread(tid)` -/
def removeThread (s : CPU n) (tid : Fin n) : Except RemovalFail (CPU n) := do
  let s := s.commitClearStates tid
  let s := s.fetchClearStates tid
  let s := s.decodeClearStates tid
  let s := s.renameClearStates tid
  let s := s.iewClearStates tid
  let s := s.flushBuffers
  require .instQueueNotEmpty (s.instQueueCount tid = 0)
  require .ldstQueueNotEmpty (s.ldstQueueCount tid = 0)
  require .robNotEmpty (s.robEmpty tid)
  return s

/-- `deactivateThread(tid)` -/
def deactivateThread (s : CPU n) (tid : Fin n) : Except RemovalFail (CPU n) := do
  require .executingHtmTransaction (!s.executingHtmTransaction tid)
  require .switchedOut (!s.switchedOut)
  return { s with
    activeThreads := s.activeThreads.erase tid
    fetchPriorityList := s.fetchPriorityList.erase tid
    commitPriorityList := s.commitPriorityList.erase tid }

/-- `haltContext(tid)` -/
def haltContext (s : CPU n) (tid : Fin n) : Except RemovalFail (CPU n) := do
  require .switchedOut (!s.switchedOut)
  let s ← s.deactivateThread tid
  let s ← s.removeThread tid
  return { s with idle := if s.activeThreads.isEmpty then true else s.idle }

/-- The loop of `exitThreads`. -/
def exitAll (s : CPU n) : List (Fin n × Bool) → Except RemovalFail (CPU n)
  | [] => .ok s
  | (tid, readyToExit) :: rest =>
      if readyToExit then do
        let s ← s.haltContext tid
        let s := { s with
          halted := Function.update s.halted tid true
          exitingThreads := s.exitingThreads.erase (tid, true) }
        s.exitAll rest
      else s.exitAll rest

/-- `exitThreads()` -/
def exitThreads (s : CPU n) : Except RemovalFail (CPU n) := do
  require .noExitingThreads (!s.exitingThreads.isEmpty)
  s.exitAll s.exitingThreads

end CPU

/-! ## What a stage receives -/

/-- The delays of the wires, in cycles. -/
structure Delays where
  fetchToDecodeDelay : ℕ
  fetchToCommitDelay : ℕ
  decodeToRenameDelay : ℕ
  renameToIEWDelay : ℕ
  renameToROBDelay : ℕ
  iewToCommitDelay : ℕ
  decodeToFetchDelay : ℕ
  renameToFetchDelay : ℕ
  iewToFetchDelay : ℕ
  commitToFetchDelay : ℕ
  renameToDecodeDelay : ℕ
  iewToDecodeDelay : ℕ
  commitToDecodeDelay : ℕ
  iewToRenameDelay : ℕ
  commitToRenameDelay : ℕ
  commitToIEWDelay : ℕ

/-- The wires on which the stages receive. -/
inductive Wire where
  | decodeFromFetch
  | commitFromFetch
  | renameFromDecode
  | iewFromRename
  | commitFromRename
  | commitFromIEW
  | fetchFromDecode
  | fetchFromRename
  | fetchFromIEW
  | fetchFromCommit
  | decodeFromRename
  | decodeFromIEW
  | decodeFromCommit
  | renameFromIEW
  | renameFromCommit
  | iewFromCommit
  | robInfoFromIEW
  deriving DecidableEq, Repr

/-- The delay of a wire, as `getWire` sets it up. -/
def Delays.of (d : Delays) : Wire → ℕ
  | .decodeFromFetch => d.fetchToDecodeDelay
  | .commitFromFetch => d.fetchToCommitDelay
  | .renameFromDecode => d.decodeToRenameDelay
  | .iewFromRename => d.renameToIEWDelay
  | .commitFromRename => d.renameToROBDelay
  | .commitFromIEW => d.iewToCommitDelay
  | .fetchFromDecode => d.decodeToFetchDelay
  | .fetchFromRename => d.renameToFetchDelay
  | .fetchFromIEW => d.iewToFetchDelay
  | .fetchFromCommit => d.commitToFetchDelay
  | .decodeFromRename => d.renameToDecodeDelay
  | .decodeFromIEW => d.iewToDecodeDelay
  | .decodeFromCommit => d.commitToDecodeDelay
  | .renameFromIEW => d.iewToRenameDelay
  | .renameFromCommit => d.commitToRenameDelay
  | .iewFromCommit => d.commitToIEWDelay
  | .robInfoFromIEW => d.iewToCommitDelay

/-- What a wire shows of one thread. -/
inductive Message (n : ℕ) where
  | insts (l : List (DynInst n))
  | toCommit (l : List (DynInst n)) (info : IEWComm)
  | decodeInfo (info : DecodeComm)
  | renameInfo (info : RenameComm)
  | iewInfo (info : IewComm)
  | commitInfo (info : CommitComm)
  deriving DecidableEq

section Messages

variable {n : ℕ}

def InstStruct.message (t : Fin n) (v : InstStruct n) : Message n :=
  .insts (v.insts.filter (·.tid = t))

def IEWStruct.message (t : Fin n) (v : IEWStruct n) : Message n :=
  .toCommit (v.insts.filter (·.tid = t)) (v.thread t)

/-- A stage reads what the stage at the other end of its wire wrote. -/
def TimeStruct.message (w : Wire) (t : Fin n) (v : TimeStruct n) : Message n :=
  match w with
  | .fetchFromDecode => .decodeInfo (v.thread t).decodeInfo
  | .fetchFromRename | .decodeFromRename => .renameInfo (v.thread t).renameInfo
  | .fetchFromIEW | .decodeFromIEW | .renameFromIEW | .robInfoFromIEW =>
      .iewInfo (v.thread t).iewInfo
  | _ => .commitInfo (v.thread t).commitInfo

/-- What a wire would show of a thread if it were attached at `idx`. -/
def CPU.messageAt (s : CPU n) (w : Wire) (idx : ℤ) (t : Fin n) : Option (Message n) :=
  match w with
  | .decodeFromFetch | .commitFromFetch => (s.fetchQueue.access idx).map (InstStruct.message t)
  | .renameFromDecode => (s.decodeQueue.access idx).map (InstStruct.message t)
  | .iewFromRename | .commitFromRename => (s.renameQueue.access idx).map (InstStruct.message t)
  | .commitFromIEW => (s.iewQueue.access idx).map (IEWStruct.message t)
  | w => (s.timeBuffer.access idx).map (TimeStruct.message w t)

/-- What a stage receives for a thread in the next cycle. -/
def CPU.received (d : Delays) (s : CPU n) (w : Wire) (t : Fin n) : Option (Message n) :=
  s.messageAt w (-(d.of w)) t

/-- What a wire shows of a thread when there is nothing for it. -/
def blank (w : Wire) (t : Fin n) : Message n :=
  match w with
  | .decodeFromFetch | .commitFromFetch | .renameFromDecode | .iewFromRename | .commitFromRename =>
      InstStruct.message t default
  | .commitFromIEW => IEWStruct.message t default
  | w => TimeStruct.message w t default

end Messages

/-! ## Cycles -/

/-- What the stages write in a cycle: instructions they send on, and changes of the signals of
each thread.  The results of executed instructions may be written to a later slot. -/
structure Writes (n : ℕ) where
  toDecode : List (DynInst n)
  toRename : List (DynInst n)
  toIEW : List (DynInst n)
  toCommit : List (ℕ × List (DynInst n) × (Fin n → IEWComm → IEWComm))
  decodeInfo : Fin n → DecodeComm → DecodeComm
  renameInfo : Fin n → RenameComm → RenameComm
  iewInfo : Fin n → IewComm → IewComm
  commitInfo : Fin n → CommitComm → CommitComm

namespace Writes

variable {n : ℕ}

/-- Sending instructions on. -/
def send (l : List (DynInst n)) : List (ℕ × (InstStruct n → InstStruct n)) :=
  [(0, fun v => ⟨v.insts ++ l⟩)]

def sendToCommit (w : Writes n) : List (ℕ × (IEWStruct n → IEWStruct n)) :=
  w.toCommit.map fun x => (x.1, fun v => ⟨v.insts ++ x.2.1, fun t => x.2.2 t (v.thread t)⟩)

def signal (w : Writes n) : List (ℕ × (TimeStruct n → TimeStruct n)) :=
  [(0, fun v => ⟨fun t =>
    { decodeInfo := w.decodeInfo t (v.thread t).decodeInfo
      renameInfo := w.renameInfo t (v.thread t).renameInfo
      iewInfo := w.iewInfo t (v.thread t).iewInfo
      commitInfo := w.commitInfo t (v.thread t).commitInfo }⟩)]

/-- A cycle in which the stages write nothing. -/
def none : Writes n :=
  ⟨[], [], [], [], fun _ => id, fun _ => id, fun _ => id, fun _ => id⟩

end Writes

namespace CPU

variable {n : ℕ}

/-- The counters of rename for one thread: what it sends is added, what IEW reports as
dispatched is taken off. -/
def updateProgress (c : InProgress) (sent : List (DynInst n)) (report : Option (Message n)) :
    InProgress :=
  let c : InProgress :=
    { instsInProgress := c.instsInProgress + sent.length
      loadsInProgress := c.loadsInProgress +
        (sent.filter fun i => !(i.isAtomic || i.isStore) && i.isLoad).length
      storesInProgress := c.storesInProgress +
        (sent.filter fun i => i.isAtomic || i.isStore).length }
  match report with
  | some (.iewInfo info) =>
      { instsInProgress := c.instsInProgress - info.dispatched
        loadsInProgress := c.loadsInProgress - info.dispatchedToLQ
        storesInProgress := c.storesInProgress - info.dispatchedToSQ }
  | _ => c

/-- A cycle: the stages read their wires and write, then the buffers advance. -/
def cycle (d : Delays) (s : CPU n) (w : Writes n) : CPU n :=
  { s with
    timeBuffer := s.timeBuffer.cycle w.signal
    fetchQueue := s.fetchQueue.cycle (Writes.send w.toDecode)
    decodeQueue := s.decodeQueue.cycle (Writes.send w.toRename)
    renameQueue := s.renameQueue.cycle (Writes.send w.toIEW)
    iewQueue := s.iewQueue.cycle w.sendToCommit
    rename := fun t =>
      { s.rename t with
        inProgress := updateProgress (s.rename t).inProgress (w.toIEW.filter (·.tid = t))
          (s.received d .renameFromIEW t) } }

def cycles (d : Delays) (s : CPU n) (ws : List (Writes n)) : CPU n := ws.foldl (cycle d) s

end CPU

/-! ## What can be seen of a removal -/

/-- The buffers are built alike, and the wires are inside them, as `getWire` asserts. -/
structure Wired {n : ℕ} (d : Delays) (s : CPU n) : Prop where
  fetch : s.fetchQueue.past = s.timeBuffer.past ∧ s.fetchQueue.future = s.timeBuffer.future
  decode : s.decodeQueue.past = s.timeBuffer.past ∧ s.decodeQueue.future = s.timeBuffer.future
  rename : s.renameQueue.past = s.timeBuffer.past ∧ s.renameQueue.future = s.timeBuffer.future
  iew : s.iewQueue.past = s.timeBuffer.past ∧ s.iewQueue.future = s.timeBuffer.future
  delay : ∀ w, d.of w ≤ s.timeBuffer.past

section Invisible

variable {n : ℕ} (d : Delays) (s s' : CPU n) (t : Fin n)

/-- **A thread does not notice** that the processor is in `s'` and not in `s`: whatever is written
from now on, every stage receives the same for it in every cycle, and the counters of rename
for it are the same. -/
def Invisible : Prop :=
  ∀ ws, (∀ w, (s'.cycles d ws).received d w t = (s.cycles d ws).received d w t) ∧
    ((s'.cycles d ws).rename t).inProgress = ((s.cycles d ws).rename t).inProgress

/-- Nothing of a thread is on its way to a stage. -/
def NothingInFlight : Prop :=
  ∀ w (i : ℤ), -(d.of w : ℤ) ≤ i → i ≤ s.timeBuffer.future → s.messageAt w i t = some (blank w t)

/-- A wire shows the same of a thread, now and later. -/
def WireAgrees (w : Wire) : Prop :=
  match w with
  | .decodeFromFetch | .commitFromFetch =>
      TimeBuffer.Agree (InstStruct.message t) (d.of w) s.fetchQueue s'.fetchQueue
  | .renameFromDecode =>
      TimeBuffer.Agree (InstStruct.message t) (d.of w) s.decodeQueue s'.decodeQueue
  | .iewFromRename | .commitFromRename =>
      TimeBuffer.Agree (InstStruct.message t) (d.of w) s.renameQueue s'.renameQueue
  | .commitFromIEW => TimeBuffer.Agree (IEWStruct.message t) (d.of w) s.iewQueue s'.iewQueue
  | w => TimeBuffer.Agree (TimeStruct.message w t) (d.of w) s.timeBuffer s'.timeBuffer

end Invisible

section

variable {n : ℕ} {d : Delays} {s s' : CPU n} {t : Fin n}

theorem WireAgrees.received {w : Wire} (h : WireAgrees d s s' t w) :
    s'.received d w t = s.received d w t := by
  cases w <;> exact TimeBuffer.Agree.read h

/-- The instructions of a thread that are sent on. -/
theorem send_respects (l : List (DynInst n)) :
    ∀ w ∈ Writes.send l, ∀ x y : InstStruct n, InstStruct.message t x = InstStruct.message t y →
      InstStruct.message t (w.2 x) = InstStruct.message t (w.2 y) := by
  intro w hw x y hxy
  obtain rfl := List.mem_singleton.mp hw
  have hxy := Message.insts.inj hxy
  unfold InstStruct.message
  rw [List.filter_append, List.filter_append, hxy]

theorem sendToCommit_respects (wr : Writes n) :
    ∀ w ∈ wr.sendToCommit, ∀ x y : IEWStruct n, IEWStruct.message t x = IEWStruct.message t y →
      IEWStruct.message t (w.2 x) = IEWStruct.message t (w.2 y) := by
  intro w hw x y hxy
  obtain ⟨v, -, rfl⟩ := List.mem_map.mp hw
  obtain ⟨hinsts, hinfo⟩ := Message.toCommit.inj hxy
  show Message.toCommit ((x.insts ++ v.2.1).filter (·.tid = t)) (v.2.2 t (x.thread t)) =
    Message.toCommit ((y.insts ++ v.2.1).filter (·.tid = t)) (v.2.2 t (y.thread t))
  rw [List.filter_append, List.filter_append, hinsts, hinfo]

theorem signal_respects (wr : Writes n) (w : Wire) :
    ∀ m ∈ wr.signal, ∀ x y : TimeStruct n, TimeStruct.message w t x = TimeStruct.message w t y →
      TimeStruct.message w t (m.2 x) = TimeStruct.message w t (m.2 y) := by
  intro m hm x y hxy
  obtain rfl := List.mem_singleton.mp hm
  cases w <;>
    simp only [TimeStruct.message, Message.decodeInfo.injEq, Message.renameInfo.injEq,
      Message.iewInfo.injEq, Message.commitInfo.injEq] at hxy ⊢ <;>
    rw [hxy]

theorem WireAgrees.cycle {w : Wire} (h : WireAgrees d s s' t w) (wr : Writes n) :
    WireAgrees d (s.cycle d wr) (s'.cycle d wr) t w := by
  cases w with
  | decodeFromFetch | commitFromFetch | renameFromDecode | iewFromRename | commitFromRename =>
    exact TimeBuffer.Agree.cycle h (send_respects _)
  | commitFromIEW => exact TimeBuffer.Agree.cycle h (sendToCommit_respects wr)
  | _ => exact TimeBuffer.Agree.cycle h (signal_respects wr _)

/-- What all wires show the same of a thread stays the same, and so do its counters. -/
theorem invisible_of_agrees (hagree : ∀ w, WireAgrees d s s' t w)
    (hcount : (s'.rename t).inProgress = (s.rename t).inProgress) : Invisible d s s' t := by
  intro ws
  induction ws generalizing s s' with
  | nil => exact ⟨fun w => (hagree w).received, hcount⟩
  | cons wr ws ih =>
    refine ih (fun w => (hagree w).cycle wr) ?_
    show CPU.updateProgress (s'.rename t).inProgress _ (s'.received d .renameFromIEW t) =
      CPU.updateProgress (s.rename t).inProgress _ (s.received d .renameFromIEW t)
    rw [hcount, (hagree .renameFromIEW).received]

/-- Every slot of every buffer is empty for a thread. -/
def Emptied (s : CPU n) (t : Fin n) : Prop :=
  ∀ w (i : ℤ), -(s.timeBuffer.past : ℤ) ≤ i → i ≤ s.timeBuffer.future →
    s.messageAt w i t = some (blank w t)

theorem agrees_of_nothingInFlight (hs : Wired d s) (hs' : Wired d s')
    (hpast : s'.timeBuffer.past = s.timeBuffer.past)
    (hfuture : s'.timeBuffer.future = s.timeBuffer.future) (hempty : Emptied s' t)
    (hnothing : NothingInFlight d s t) (w : Wire) : WireAgrees d s s' t w := by
  have hdelay := hs.delay w
  have hslots : ∀ i : ℤ, -(d.of w : ℤ) ≤ i → i ≤ s.timeBuffer.future →
      s'.messageAt w i t = s.messageAt w i t := by
    intro i hlow hhigh
    rw [hnothing w i hlow hhigh, hempty w i (by omega) (by omega)]
  have hagree : ∀ {T : Type} (π : T → Message n) (b b' : TimeBuffer T),
      b.past = s.timeBuffer.past ∧ b.future = s.timeBuffer.future →
      b'.past = s'.timeBuffer.past ∧ b'.future = s'.timeBuffer.future →
      (∀ i : ℤ, -(d.of w : ℤ) ≤ i → i ≤ s.timeBuffer.future →
        (b'.access i).map π = (b.access i).map π) →
      TimeBuffer.Agree π (d.of w) b b' := by
    rintro T π b b' ⟨hb, hb₁⟩ ⟨hb', hb₁'⟩ hslots
    exact ⟨by omega, by omega, by omega, fun i h h' => hslots i h (by omega)⟩
  cases w with
  | decodeFromFetch | commitFromFetch => exact hagree _ _ _ hs.fetch hs'.fetch hslots
  | renameFromDecode => exact hagree _ _ _ hs.decode hs'.decode hslots
  | iewFromRename | commitFromRename => exact hagree _ _ _ hs.rename hs'.rename hslots
  | commitFromIEW => exact hagree _ _ _ hs.iew hs'.iew hslots
  | _ => exact hagree _ _ _ ⟨rfl, rfl⟩ ⟨rfl, rfl⟩ hslots

/-- Idle cycles only advance the buffers. -/
theorem cycles_none (s : CPU n) (k : ℕ) :
    (s.cycles d (List.replicate k Writes.none)).timeBuffer = s.timeBuffer.flush k ∧
      (s.cycles d (List.replicate k Writes.none)).fetchQueue = s.fetchQueue.flush k ∧
      (s.cycles d (List.replicate k Writes.none)).decodeQueue = s.decodeQueue.flush k ∧
      (s.cycles d (List.replicate k Writes.none)).renameQueue = s.renameQueue.flush k ∧
      (s.cycles d (List.replicate k Writes.none)).iewQueue = s.iewQueue.flush k := by
  have hsend : ∀ w ∈ Writes.send ([] : List (DynInst n)), w.2 = id := by
    intro w hw
    obtain rfl := List.mem_singleton.mp hw
    funext v
    exact congrArg InstStruct.mk (List.append_nil v.insts)
  have hsignal : ∀ w ∈ (Writes.none : Writes n).signal, w.2 = id := by
    intro w hw
    obtain rfl := List.mem_singleton.mp hw
    rfl
  induction k generalizing s with
  | zero => exact ⟨rfl, rfl, rfl, rfl, rfl⟩
  | succ k ih =>
    have hcycle := ih (s.cycle d Writes.none)
    have htime : (s.cycle d Writes.none).timeBuffer = s.timeBuffer.advance :=
      TimeBuffer.cycle_of_forall_id _ hsignal
    have hfetch : (s.cycle d Writes.none).fetchQueue = s.fetchQueue.advance :=
      TimeBuffer.cycle_of_forall_id _ hsend
    have hdecode : (s.cycle d Writes.none).decodeQueue = s.decodeQueue.advance :=
      TimeBuffer.cycle_of_forall_id _ hsend
    have hrename : (s.cycle d Writes.none).renameQueue = s.renameQueue.advance :=
      TimeBuffer.cycle_of_forall_id _ hsend
    rw [htime, hfetch, hdecode, hrename] at hcycle
    exact hcycle

/-- What is in flight reaches its stage, if nothing else is written. -/
theorem received_idle (hs : Wired d s) (w : Wire) {i : ℤ} (hlow : -(d.of w : ℤ) ≤ i)
    (hhigh : i ≤ s.timeBuffer.future) :
    (s.cycles d (List.replicate (i + d.of w).toNat Writes.none)).received d w t =
      s.messageAt w i t := by
  obtain ⟨htime, hfetch, hdecode, hrename, hiew⟩ := cycles_none (d := d) s (i + d.of w).toNat
  have hdelay := hs.delay w
  have hidle : ∀ {T : Type} [Inhabited T] (b : TimeBuffer T),
      b.past = s.timeBuffer.past ∧ b.future = s.timeBuffer.future →
      (b.flush (i + d.of w).toNat).access (-(d.of w)) = b.access i := by
    rintro T _ b ⟨hpast, hfuture⟩
    exact TimeBuffer.access_idle b (d.of w) (by omega) hlow (by omega)
  unfold CPU.received CPU.messageAt
  rw [htime, hfetch, hdecode, hrename, hiew]
  cases w with
  | decodeFromFetch | commitFromFetch =>
    exact congrArg (Option.map (InstStruct.message t)) (hidle s.fetchQueue hs.fetch)
  | renameFromDecode =>
    exact congrArg (Option.map (InstStruct.message t)) (hidle s.decodeQueue hs.decode)
  | iewFromRename | commitFromRename =>
    exact congrArg (Option.map (InstStruct.message t)) (hidle s.renameQueue hs.rename)
  | commitFromIEW =>
    exact congrArg (Option.map (IEWStruct.message t)) (hidle s.iewQueue hs.iew)
  | _ => exact congrArg (Option.map _) (hidle s.timeBuffer ⟨rfl, rfl⟩)

/-- **When nothing is left of a thread's messages**, it does not notice exactly if there were none. -/
theorem invisible_iff (hs : Wired d s) (hs' : Wired d s')
    (hpast : s'.timeBuffer.past = s.timeBuffer.past)
    (hfuture : s'.timeBuffer.future = s.timeBuffer.future) (hempty : Emptied s' t)
    (hcount : (s'.rename t).inProgress = (s.rename t).inProgress) :
    Invisible d s s' t ↔ NothingInFlight d s t := by
  constructor
  · intro h w i hlow hhigh
    have hdelay := hs.delay w
    have hread := (h (List.replicate (i + d.of w).toNat Writes.none)).1 w
    rw [received_idle hs w hlow hhigh, received_idle hs' w hlow (by omega)] at hread
    rw [← hread, hempty w i (by omega) (by omega)]
  · intro h
    exact invisible_of_agrees (agrees_of_nothingInFlight hs hs' hpast hfuture hempty h) hcount

/-! ## Removal -/

/-- What a removal of other threads leaves for a thread. -/
structure Removed (d : Delays) (s s' : CPU n) (t : Fin n) : Prop where
  wired : Wired d s'
  past : s'.timeBuffer.past = s.timeBuffer.past
  future : s'.timeBuffer.future = s.timeBuffer.future
  rename : s'.rename t = s.rename t
  empty : Emptied s' t

theorem flushBuffers_emptied (hs : Wired d s) : Emptied s.flushBuffers t := by
  intro w i hlow hhigh
  have hshape := TimeBuffer.shape_flush s.timeBuffer s.timeBuffer.size
  have hlow : -(s.timeBuffer.past : ℤ) ≤ i := by
    rw [← hshape.1]
    exact hlow
  have hhigh : i ≤ s.timeBuffer.future := by
    rw [← hshape.2]
    exact hhigh
  have hflush : ∀ {T : Type} [Inhabited T] (b : TimeBuffer T),
      b.past = s.timeBuffer.past ∧ b.future = s.timeBuffer.future →
      (b.flush s.timeBuffer.size).access i = some default := by
    rintro T _ b ⟨hpast, hfuture⟩
    refine TimeBuffer.access_flush b ⟨?_, ?_⟩ ?_
    · omega
    · omega
    · unfold TimeBuffer.size
      omega
  unfold CPU.messageAt CPU.flushBuffers
  cases w with
  | decodeFromFetch | commitFromFetch =>
    exact congrArg (Option.map (InstStruct.message t)) (hflush s.fetchQueue hs.fetch)
  | renameFromDecode =>
    exact congrArg (Option.map (InstStruct.message t)) (hflush s.decodeQueue hs.decode)
  | iewFromRename | commitFromRename =>
    exact congrArg (Option.map (InstStruct.message t)) (hflush s.renameQueue hs.rename)
  | commitFromIEW =>
    exact congrArg (Option.map (IEWStruct.message t)) (hflush s.iewQueue hs.iew)
  | _ => exact congrArg (Option.map _) (hflush s.timeBuffer ⟨rfl, rfl⟩)

theorem Wired.flushBuffers (hs : Wired d s) : Wired d s.flushBuffers := by
  have hshape : ∀ {T : Type} [Inhabited T] (b : TimeBuffer T),
      b.past = s.timeBuffer.past ∧ b.future = s.timeBuffer.future →
      (b.flush s.timeBuffer.size).past = (s.timeBuffer.flush s.timeBuffer.size).past ∧
        (b.flush s.timeBuffer.size).future = (s.timeBuffer.flush s.timeBuffer.size).future := by
    rintro T _ b ⟨hpast, hfuture⟩
    have hb := TimeBuffer.shape_flush b s.timeBuffer.size
    have ht := TimeBuffer.shape_flush s.timeBuffer s.timeBuffer.size
    exact ⟨by rw [hb.1, ht.1, hpast], by rw [hb.2, ht.2, hfuture]⟩
  refine ⟨hshape _ hs.fetch, hshape _ hs.decode, hshape _ hs.rename, hshape _ hs.iew, fun w => ?_⟩
  exact (hs.delay w).trans (TimeBuffer.shape_flush s.timeBuffer s.timeBuffer.size).1.ge

/-- The state of `removeThread` before the buffers are flushed. -/
def CPU.clearStates (s : CPU n) (tid : Fin n) : CPU n :=
  ((((s.commitClearStates tid).fetchClearStates tid).decodeClearStates tid).renameClearStates
    tid).iewClearStates tid

theorem removeThread_eq {tid : Fin n} (h : s.removeThread tid = .ok s') :
    s' = (s.clearStates tid).flushBuffers := by
  obtain ⟨_, -, h⟩ := bind_eq_ok.mp h
  obtain ⟨_, -, h⟩ := bind_eq_ok.mp h
  obtain ⟨_, -, h⟩ := bind_eq_ok.mp h
  exact (Except.ok.inj h).symm

/-- Two states with the same buffers and the same state of rename. -/
structure Alike (s s' : CPU n) : Prop where
  timeBuffer : s'.timeBuffer = s.timeBuffer
  fetchQueue : s'.fetchQueue = s.fetchQueue
  decodeQueue : s'.decodeQueue = s.decodeQueue
  renameQueue : s'.renameQueue = s.renameQueue
  iewQueue : s'.iewQueue = s.iewQueue
  rename : s'.rename = s.rename

theorem Alike.wired (h : Alike s s') (hs : Wired d s) : Wired d s' := by
  obtain ⟨htime, hfetch, hdecode, hrename, hiew, -⟩ := h
  refine ⟨?_, ?_, ?_, ?_, ?_⟩
  · rw [htime, hfetch]
    exact hs.fetch
  · rw [htime, hdecode]
    exact hs.decode
  · rw [htime, hrename]
    exact hs.rename
  · rw [htime, hiew]
    exact hs.iew
  · rw [htime]
    exact hs.delay

theorem Alike.emptied (h : Alike s s') (hs : Emptied s t) : Emptied s' t := by
  obtain ⟨htime, hfetch, hdecode, hrename, hiew, -⟩ := h
  unfold Emptied CPU.messageAt at hs ⊢
  rw [htime, hfetch, hdecode, hrename, hiew]
  exact hs

theorem haltContext_eq {tid : Fin n} (h : s.haltContext tid = .ok s') :
    ∃ s₁, Alike s s₁ ∧ Alike (s₁.clearStates tid).flushBuffers s' := by
  obtain ⟨_, -, h⟩ := bind_eq_ok.mp h
  obtain ⟨s₁, h₁, h⟩ := bind_eq_ok.mp h
  obtain ⟨s₂, h₂, h⟩ := bind_eq_ok.mp h
  obtain ⟨_, -, h₁⟩ := bind_eq_ok.mp h₁
  obtain ⟨_, -, h₁⟩ := bind_eq_ok.mp h₁
  obtain rfl := Except.ok.inj h₁
  obtain rfl := removeThread_eq h₂
  obtain rfl := Except.ok.inj h
  exact ⟨_, ⟨rfl, rfl, rfl, rfl, rfl, rfl⟩, ⟨rfl, rfl, rfl, rfl, rfl, rfl⟩⟩

theorem Wired.clearStates (hs : Wired d s) (tid : Fin n) : Wired d (s.clearStates tid) := by
  have hpast : (s.clearStates tid).timeBuffer.past = s.timeBuffer.past :=
    TimeBuffer.past_modify ..
  have hfuture : (s.clearStates tid).timeBuffer.future = s.timeBuffer.future :=
    TimeBuffer.future_modify ..
  refine ⟨?_, ?_, ?_, ?_, ?_⟩
  · rw [hpast, hfuture]
    exact hs.fetch
  · rw [hpast, hfuture]
    exact hs.decode
  · rw [hpast, hfuture]
    exact hs.rename
  · rw [hpast, hfuture]
    exact hs.iew
  · rw [hpast]
    exact hs.delay

/-- **A removal** clears the buffers for every thread. -/
theorem haltContext_removed (hs : Wired d s) {tid : Fin n} (h : s.haltContext tid = .ok s')
    (hne : t ≠ tid) : Removed d s s' t := by
  obtain ⟨s₁, hbefore, hafter⟩ := haltContext_eq h
  have hs₁ := (hbefore.wired hs).clearStates tid
  have hshape := TimeBuffer.shape_flush (s₁.clearStates tid).timeBuffer
  refine ⟨hafter.wired hs₁.flushBuffers, ?_, ?_, ?_, hafter.emptied (flushBuffers_emptied hs₁)⟩
  · rw [hafter.timeBuffer, ← hbefore.timeBuffer]
    exact (hshape _).1.trans (TimeBuffer.past_modify ..)
  · rw [hafter.timeBuffer, ← hbefore.timeBuffer]
    exact (hshape _).2.trans (TimeBuffer.future_modify ..)
  · rw [hafter.rename, ← hbefore.rename]
    exact Function.update_of_ne hne _ _

/-- Two removals one after the other. -/
theorem Removed.trans {s'' : CPU n} (h : Removed d s s' t) (h' : Removed d s' s'' t) :
    Removed d s s'' t :=
  ⟨h'.wired, h'.past.trans h.past, h'.future.trans h.future, h'.rename.trans h.rename, h'.empty⟩

theorem Removed.of_alike {s'' : CPU n} (h : Removed d s s' t) (h' : Alike s' s'') :
    Removed d s s'' t := by
  refine ⟨h'.wired h.wired, ?_, ?_, ?_, h'.emptied h.empty⟩
  · rw [h'.timeBuffer]
    exact h.past
  · rw [h'.timeBuffer]
    exact h.future
  · rw [h'.rename]
    exact h.rename

/-- The threads that are ready to exit are removed one after the other. -/
theorem exitAll_removed (hs : Wired d s) {l : List (Fin n × Bool)} (h : s.exitAll l = .ok s')
    (hstays : (t, true) ∉ l) : s' = s ∧ (∀ x ∈ l, x.2 = false) ∨ Removed d s s' t := by
  induction l generalizing s with
  | nil => exact .inl ⟨(Except.ok.inj h).symm, fun _ hx => absurd hx List.not_mem_nil⟩
  | cons x rest ih =>
    obtain ⟨tid, ready⟩ := x
    have hrest : (t, true) ∉ rest := fun hmem => hstays (List.mem_cons_of_mem _ hmem)
    unfold CPU.exitAll at h
    cases ready with
    | false =>
      rcases ih hs h hrest with ⟨rfl, hnone⟩ | hremoved
      · refine .inl ⟨rfl, fun x hx => ?_⟩
        rcases List.mem_cons.mp hx with rfl | hx
        · rfl
        · exact hnone x hx
      · exact .inr hremoved
    | true =>
      obtain ⟨s₁, h₁, h⟩ := bind_eq_ok.mp h
      have hne : t ≠ tid := by
        rintro rfl
        exact hstays List.mem_cons_self
      let s₂ : CPU n :=
        { s₁ with
          halted := Function.update s₁.halted tid true
          exitingThreads := s₁.exitingThreads.erase (tid, true) }
      have h₂ : s₂.exitAll rest = .ok s' := h
      have hs₂ : Removed d s s₂ t :=
        (haltContext_removed hs h₁ hne).of_alike ⟨rfl, rfl, rfl, rfl, rfl, rfl⟩
      rcases ih hs₂.wired h₂ hrest with ⟨rfl, -⟩ | hremoved
      · exact .inr hs₂
      · exact .inr (hs₂.trans hremoved)

/-- **Removing threads.**  When `haltContext` has removed a thread, or `exitThreads` at least one,
another thread does not notice exactly if nothing of it was in flight in the time buffers: else
some stage misses an instruction or a signal that it would have received. -/
theorem removal_undisturbed_iff (d : Delays) (s s' : CPU n) (hs : Wired d s) (t : Fin n) :
    (∀ tid, t ≠ tid → s.haltContext tid = .ok s' →
      (Invisible d s s' t ↔ NothingInFlight d s t)) ∧
    ((∃ tid, (tid, true) ∈ s.exitingThreads) → (t, true) ∉ s.exitingThreads →
      s.exitThreads = .ok s' → (Invisible d s s' t ↔ NothingInFlight d s t)) := by
  have hiff : Removed d s s' t → (Invisible d s s' t ↔ NothingInFlight d s t) := fun h =>
    invisible_iff hs h.wired h.past h.future h.empty (congrArg _ h.rename)
  refine ⟨fun tid hne h => hiff (haltContext_removed hs h hne), ?_⟩
  rintro ⟨tid, htid⟩ hstays h
  obtain ⟨_, -, h⟩ := bind_eq_ok.mp h
  rcases exitAll_removed hs h hstays with ⟨-, hnone⟩ | hremoved
  · exact absurd (hnone _ htid) (by simp)
  · exact hiff hremoved

end

/-! ## Two threads -/

/-- All stages one cycle apart. -/
def unitDelays : Delays := ⟨1, 1, 1, 1, 1, 1, 1, 1, 1, 1, 1, 1, 1, 1, 1, 1⟩

/-- Two threads with empty queues, and what is between rename and IEW. -/
def testCPU (renamed : List (DynInst 2)) : CPU 2 where
  timeBuffer := .new 1 0
  fetchQueue := .new 1 0
  decodeQueue := .new 1 0
  renameQueue := (TimeBuffer.new 1 0).modify (-1) fun _ => ⟨renamed⟩
  iewQueue := .new 1 0
  commit _ := ⟨.Running, false, false, false, false, false, false, 0, 0, none⟩
  fetch _ := ⟨.Running, 0, 0, false, false, false, false, false, 0, false, []⟩
  decode _ := ⟨.Running, false⟩
  rename _ := ⟨.Running, ⟨8, 8, 8, 8⟩, true, false, none, ⟨0, 0, 0⟩, false⟩
  activeThreads := .finRange 2
  fetchPriorityList := .finRange 2
  commitPriorityList := .finRange 2
  pcState _ := 0
  numFreeEntries _ := ⟨8, 8, 8, 8⟩
  instQueueCount _ := 0
  ldstQueueCount _ := 0
  robEmpty _ := true
  executingHtmTransaction _ := false
  exitingThreads := [(⟨0, Nat.two_pos⟩, true)]
  halted _ := false
  switchedOut := false
  idle := false

theorem wired_testCPU (renamed : List (DynInst 2)) : Wired unitDelays (testCPU renamed) where
  fetch := ⟨rfl, rfl⟩
  decode := ⟨rfl, rfl⟩
  rename := ⟨rfl, rfl⟩
  iew := ⟨rfl, rfl⟩
  delay w := by cases w <;> exact le_rfl

/-- An instruction of the first thread. -/
def leavingInst : DynInst 2 := ⟨⟨0, Nat.two_pos⟩, 6, true, false, false⟩

/-- The second thread does not notice that the first one exits with an instruction of its own on its
way from rename to IEW. -/
theorem removal_undisturbed_leaving :
    (testCPU [leavingInst]).received unitDelays .iewFromRename 0 = some (.insts [leavingInst]) ∧
    ∃ s', (testCPU [leavingInst]).haltContext 0 = .ok s' ∧
      Invisible unitDelays (testCPU [leavingInst]) s' 1 := by
  refine ⟨rfl, _, rfl, ((removal_undisturbed_iff unitDelays (testCPU [leavingInst]) _
    (wired_testCPU [leavingInst]) 1).1 0 (by decide) rfl).mpr fun w i hlow hhigh => ?_⟩
  have hdelay : unitDelays.of w = 1 := by cases w <;> rfl
  have hfuture : (testCPU [leavingInst]).timeBuffer.future = 0 := rfl
  rw [hdelay] at hlow
  rw [hfuture] at hhigh
  obtain rfl | rfl : i = -1 ∨ i = 0 := by omega
  · cases w <;> rfl
  · cases w <;> rfl

/-- An instruction of the second thread. -/
def testInst : DynInst 2 := ⟨.last 1, 7, false, false, false⟩

/-- **Lost instructions.**  An instruction of the second thread is on its way from rename to IEW
when the first one exits, and never gets there. -/
theorem removal_loses_instruction :
    ∃ s', (testCPU [testInst]).exitThreads = .ok s' ∧
      (testCPU [testInst]).received unitDelays .iewFromRename 1 = some (.insts [testInst]) ∧
      s'.received unitDelays .iewFromRename 1 = some (.insts []) ∧
      ¬ Invisible unitDelays (testCPU [testInst]) s' 1 := by
  refine ⟨_, rfl, rfl, rfl, fun h => ?_⟩
  have hread := (h []).1 .iewFromRename
  exact absurd (Message.insts.inj (Option.some.inj hread)) nofun

end Gem5.Pipeline
