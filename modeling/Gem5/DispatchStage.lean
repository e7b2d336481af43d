/-
# Dispatch and what rename counts in progress

Embedding of the dispatch half of the IEW stage (`cpu/o3/iew.cc`) and of the counters that rename
keeps of the instructions it has sent (`cpu/o3/rename.cc`).  Rename counts an instruction when it
sends it; IEW reports back, in the slot of the cycle in which it dispatches or drops the
instruction, and rename subtracts the report when it arrives.

What a cycle depends on from outside is its input: which instructions rename sends, what commit
signals, which instructions are marked squashed, and whether the queues are full.  The buffers
between the two stages are lines of slots, one for each cycle of delay.
-/
import Gem5.Runs
import Gem5.ThreadRemoval

open Runs

namespace Gem5.Pipeline

/-! ## Data -/

/-- `IEW::StageStatus` -/
inductive StageStatus where
  | Running
  | Blocked
  | Idle
  | StartSquash
  | Squashing
  | Unblocking
  deriving DecidableEq, Repr

/-- What IEW tells rename of one thread in one cycle.  `processed` is not in the source: it records
the instructions that the three numbers count. -/
structure DispatchReport (n : ℕ) where
  dispatched : ℕ := 0
  dispatchedToLQ : ℕ := 0
  dispatchedToSQ : ℕ := 0
  iewBlock : Bool := false
  iewUnblock : Bool := false
  processed : List (DynInst n) := []
  deriving DecidableEq, Inhabited

/-- The variables of dispatch for one thread, and the report it is writing. -/
structure DispatchThread (n : ℕ) where
  insts : List (DynInst n) := []
  skidBuffer : List (DynInst n) := []
  dispatchStatus : StageStatus := .Running
  toRename : DispatchReport n := {}
  deriving DecidableEq

/-- The parameters of the two stages. -/
structure DispatchParams where
  dispatchWidth : ℕ
  renameWidth : ℕ
  renameToIEWDelay : ℕ
  iewToRenameDelay : ℕ
  deriving DecidableEq, Repr

/-- `skidBufferMax`, as the constructor of IEW sets it. -/
def DispatchParams.skidBufferMax (p : DispatchParams) : ℕ :=
  (p.renameToIEWDelay + 1) * p.renameWidth

/-- What a cycle receives from outside the two stages.  The full conditions are asked of the queues
in the stall check and at every instruction that is looked at. -/
structure DispatchCycle (n : ℕ) where
  activeThreads : List (Fin n)
  sent : List (DynInst n)
  squash : Fin n → Bool
  robSquashing : Fin n → Bool
  isSquashed : DynInst n → Bool
  stallIqFull : Fin n → Bool
  iqFull : Fin n → ℕ → Bool
  lqFull : Fin n → ℕ → Bool
  sqFull : Fin n → ℕ → Bool

/-- The assertions of the two stages. -/
inductive DispatchFail where
  | skidbufferExceededMaxSize
  | skidsEmpty
  | loadsNegative
  | storesNegative
  | instsNegative
  deriving DecidableEq, Repr

variable {n : ℕ}

/-! ## Reports -/

namespace DispatchReport

/-- The report of an instruction that is dropped. -/
def drop (r : DispatchReport n) (inst : DynInst n) : DispatchReport n :=
  { r with
    dispatchedToLQ := if inst.isLoad then r.dispatchedToLQ + 1 else r.dispatchedToLQ
    dispatchedToSQ :=
      if inst.isStore || inst.isAtomic then r.dispatchedToSQ + 1 else r.dispatchedToSQ
    dispatched := r.dispatched + 1
    processed := r.processed ++ [inst] }

/-- The queue that an instruction is dispatched to, in the order in which the source asks. -/
def count (r : DispatchReport n) (inst : DynInst n) : DispatchReport n :=
  if inst.isAtomic then { r with dispatchedToSQ := r.dispatchedToSQ + 1 }
  else if inst.isLoad then { r with dispatchedToLQ := r.dispatchedToLQ + 1 }
  else if inst.isStore then { r with dispatchedToSQ := r.dispatchedToSQ + 1 }
  else r

/-- The report of an instruction that is dispatched. -/
def dispatch (r : DispatchReport n) (inst : DynInst n) : DispatchReport n :=
  let counted := r.count inst
  { counted with
    dispatched := counted.dispatched + 1
    processed := counted.processed ++ [inst] }

end DispatchReport

/-! ## One thread of dispatch -/

namespace DispatchThread

/-- `skidInsert(tid)` -/
def skidInsert (p : DispatchParams) (th : DispatchThread n) :
    Except DispatchFail (DispatchThread n) := do
  let skidBuffer := th.skidBuffer ++ th.insts
  require .skidbufferExceededMaxSize (skidBuffer.length ≤ p.skidBufferMax)
  return { th with insts := [], skidBuffer := skidBuffer }

/-- The block signal is sent unless the thread was blocked already. -/
def signalBlock (th : DispatchThread n) : DispatchThread n :=
  if th.dispatchStatus ≠ .Blocked ∧ th.dispatchStatus ≠ .Unblocking then
    { th with toRename := { th.toRename with iewBlock := true } }
  else th

/-- `block(tid)` -/
def block (p : DispatchParams) (th : DispatchThread n) :
    Except DispatchFail (DispatchThread n) := do
  let th ← th.signalBlock.skidInsert p
  return { th with dispatchStatus := .Blocked }

/-- `unblock(tid)` -/
def unblock (th : DispatchThread n) : DispatchThread n :=
  if th.skidBuffer.isEmpty then
    { th with
      toRename := { th.toRename with iewUnblock := true }
      dispatchStatus := .Running }
  else th

/-- `emptyRenameInsts(tid)` -/
def emptyRenameInsts (th : DispatchThread n) : DispatchThread n :=
  { th with insts := [], toRename := th.insts.foldl .drop th.toRename }

/-- `squash(tid)` -/
def squash (th : DispatchThread n) : DispatchThread n :=
  let flushed : DispatchThread n :=
    { th with skidBuffer := [], toRename := th.skidBuffer.foldl .drop th.toRename }
  flushed.emptyRenameInsts

/-- `checkStall(tid)` -/
def checkStall (c : DispatchCycle n) (tid : Fin n) : Bool :=
  c.robSquashing tid || c.stallIqFull tid

/-- The squash branch of `checkSignalsAndUpdate`. -/
def squashSignalled (th : DispatchThread n) : DispatchThread n :=
  let done := th.squash
  if th.dispatchStatus = .Blocked ∨ th.dispatchStatus = .Unblocking then
    { done with
      toRename := { done.toRename with iewUnblock := true }
      dispatchStatus := .Squashing }
  else { done with dispatchStatus := .Squashing }

/-- The branch of `checkSignalsAndUpdate` for a reorder buffer that is still squashing. -/
def robStillSquashing (th : DispatchThread n) : DispatchThread n :=
  { th.emptyRenameInsts with dispatchStatus := .Squashing }

/-- The rest of `checkSignalsAndUpdate`, after the squash signals. -/
def checkStallAndUpdate (p : DispatchParams) (c : DispatchCycle n) (tid : Fin n)
    (th : DispatchThread n) : Except DispatchFail (DispatchThread n) :=
  if checkStall c tid then th.block p
  else if th.dispatchStatus = .Blocked then
    .ok { th with dispatchStatus := .Unblocking }.unblock
  else if th.dispatchStatus = .Squashing then .ok { th with dispatchStatus := .Running }
  else .ok th

/-- `checkSignalsAndUpdate(tid)` -/
def checkSignalsAndUpdate (p : DispatchParams) (c : DispatchCycle n) (tid : Fin n)
    (th : DispatchThread n) : Except DispatchFail (DispatchThread n) :=
  if c.squash tid then .ok th.squashSignalled
  else if c.robSquashing tid then th.robStillSquashing.checkStallAndUpdate p c tid
  else th.checkStallAndUpdate p c tid

/-- What the dispatch loop leaves: the instructions not taken, the report, how many instructions
were looked at, and whether a queue was found full. -/
structure LoopEnd (n : ℕ) where
  rest : List (DynInst n)
  report : DispatchReport n
  disNumInst : ℕ
  full : Bool

/-- The loop of `dispatchInsts`, with the bandwidth that is left. -/
def dispatchLoop (c : DispatchCycle n) (tid : Fin n) :
    ℕ → ℕ → List (DynInst n) → DispatchReport n → LoopEnd n
  | 0, k, insts, r => ⟨insts, r, k, false⟩
  | _ + 1, k, [], r => ⟨[], r, k, false⟩
  | w + 1, k, inst :: insts, r =>
      if c.isSquashed inst then dispatchLoop c tid w (k + 1) insts (r.drop inst)
      else if c.iqFull tid k then ⟨inst :: insts, r, k, true⟩
      else if inst.isAtomic && c.sqFull tid k || inst.isLoad && c.lqFull tid k ||
          inst.isStore && c.sqFull tid k then ⟨inst :: insts, r, k, true⟩
      else dispatchLoop c tid w (k + 1) insts (r.dispatch inst)

/-- The queue that dispatch takes from. -/
def toDispatch (unblocking : Bool) (th : DispatchThread n) : List (DynInst n) :=
  if unblocking then th.skidBuffer else th.insts

/-- Writes back what the loop has left of that queue. -/
def setToDispatch (unblocking : Bool) (rest : List (DynInst n)) (th : DispatchThread n) :
    DispatchThread n :=
  if unblocking then { th with skidBuffer := rest } else { th with insts := rest }

/-- `block(tid)` with the unblock signal taken back. -/
def blockAgain (p : DispatchParams) (b : Bool) (th : DispatchThread n) :
    Except DispatchFail (DispatchThread n) :=
  if b then do
    let th ← th.block p
    return { th with toRename := { th.toRename with iewUnblock := false } }
  else .ok th

/-- `dispatchInsts(tid)` -/
def dispatchInsts (p : DispatchParams) (c : DispatchCycle n) (tid : Fin n)
    (th : DispatchThread n) : Except DispatchFail (DispatchThread n) := do
  let unblocking := decide (th.dispatchStatus = .Unblocking)
  let out := dispatchLoop c tid p.dispatchWidth 0 (th.toDispatch unblocking) th.toRename
  let th := { th with toRename := out.report }.setToDispatch unblocking out.rest
  let th ← th.blockAgain p out.full
  let th ← th.blockAgain p (!(th.toDispatch unblocking).isEmpty)
  return if th.dispatchStatus = .Idle ∧ out.disNumInst ≠ 0 then
      { th with dispatchStatus := .Running }
    else th

/-- The rest of the unblocking branch of `dispatch`. -/
def finishUnblocking (p : DispatchParams) (arrived : Bool) (th : DispatchThread n) :
    Except DispatchFail (DispatchThread n) :=
  if arrived then do
    let th ← th.skidInsert p
    return th.unblock
  else .ok th.unblock

/-- `dispatch(tid)`; `skidsEmpty` says whether the skid buffers of all active threads are empty, and
`arrived` whether rename has sent anything. -/
def dispatch (p : DispatchParams) (c : DispatchCycle n) (tid : Fin n) (skidsEmpty arrived : Bool)
    (th : DispatchThread n) : Except DispatchFail (DispatchThread n) :=
  match th.dispatchStatus with
  | .Running | .Idle => th.dispatchInsts p c tid
  | .Unblocking => do
      require .skidsEmpty (!skidsEmpty)
      let th ← th.dispatchInsts p c tid
      th.finishUnblocking p arrived
  | _ => .ok th

end DispatchThread

/-! ## The two stages -/

/-- Rename's counters, the slots between the stages with the oldest first, and the variables of
dispatch. -/
structure RenameDispatch (n : ℕ) where
  inProgress : Fin n → InProgress
  renameQueue : List (List (DynInst n))
  reports : List (Fin n → DispatchReport n)
  thread : Fin n → DispatchThread n

namespace RenameDispatch

/-- The processor before its first cycle. -/
def initial (p : DispatchParams) : RenameDispatch n where
  inProgress := fun _ => ⟨0, 0, 0⟩
  renameQueue := List.replicate p.renameToIEWDelay []
  reports := List.replicate p.iewToRenameDelay fun _ => {}
  thread := fun _ => {}

/-- The counting in the loop of `renameInsts`. -/
def countRenamed (r : InProgress) (inst : DynInst n) : InProgress :=
  if inst.isAtomic || inst.isStore then { r with storesInProgress := r.storesInProgress + 1 }
  else if inst.isLoad then { r with loadsInProgress := r.loadsInProgress + 1 }
  else r

/-- `renameInsts(tid)`, for the instructions of the thread that it sends. -/
def renameInsts (r : InProgress) (renamed : List (DynInst n)) : InProgress :=
  let counted := renamed.foldl countRenamed r
  { counted with instsInProgress := counted.instsInProgress + renamed.length }

/-- The last loop of `Rename::tick`, for one thread. -/
def updateProgress (r : InProgress) (fromIEW : DispatchReport n) : InProgress where
  instsInProgress := r.instsInProgress - fromIEW.dispatched
  loadsInProgress := r.loadsInProgress - fromIEW.dispatchedToLQ
  storesInProgress := r.storesInProgress - fromIEW.dispatchedToSQ

/-- The assertions on the counters of one thread. -/
def checkProgress (r : InProgress) : Except DispatchFail Unit := do
  require .loadsNegative (0 ≤ r.loadsInProgress)
  require .storesNegative (0 ≤ r.storesInProgress)
  require .instsNegative (0 ≤ r.instsInProgress)

/-- The report that rename reads in this cycle.  Without a delay it reads the slot of the cycle,
which IEW has not written yet. -/
def fromIEW (s : RenameDispatch n) : Fin n → DispatchReport n := s.reports.head?.getD fun _ => {}

/-- `Rename::tick` -/
def renameTick (s : RenameDispatch n) (c : DispatchCycle n) :
    Except DispatchFail (RenameDispatch n) := do
  let counted (tid : Fin n) := renameInsts (s.inProgress tid) (c.sent.filter (·.tid = tid))
  let updated (tid : Fin n) := updateProgress (counted tid) (s.fromIEW tid)
  (List.finRange n).forM fun tid => checkProgress (updated tid)
  return { s with inProgress := updated, renameQueue := s.renameQueue ++ [c.sent] }

/-- `skidsEmpty()` -/
def skidsEmpty (c : DispatchCycle n) (thread : Fin n → DispatchThread n) : Bool :=
  c.activeThreads.all fun tid => (thread tid).skidBuffer.isEmpty

/-- What IEW does for one active thread. -/
def tickThread (p : DispatchParams) (c : DispatchCycle n) (arrived : Bool)
    (thread : Fin n → DispatchThread n) (tid : Fin n) :
    Except DispatchFail (Fin n → DispatchThread n) := do
  let th ← (thread tid).checkSignalsAndUpdate p c tid
  let th ← th.dispatch p c tid (skidsEmpty c (Function.update thread tid th)) arrived
  return Function.update thread tid th

/-- `sortInsts()`, at the start of a cycle in which IEW has not reported anything yet. -/
def sortInsts (thread : Fin n → DispatchThread n) (fromRename : List (DynInst n)) (tid : Fin n) :
    DispatchThread n :=
  { thread tid with
    insts := (thread tid).insts ++ fromRename.filter (·.tid = tid)
    toRename := {} }

/-- The dispatch part of `IEW::tick`. -/
def iewTick (p : DispatchParams) (s : RenameDispatch n) (c : DispatchCycle n) :
    Except DispatchFail (RenameDispatch n) := do
  let fromRename := s.renameQueue.headD []
  let thread ← c.activeThreads.foldlM (tickThread p c (!fromRename.isEmpty))
    (sortInsts s.thread fromRename)
  return { s with
    renameQueue := s.renameQueue.tail
    reports := (s.reports ++ [fun tid => (thread tid).toRename]).tail
    thread := thread }

/-- One cycle of the two stages: rename is ticked before IEW. -/
def cycle (p : DispatchParams) (s : RenameDispatch n) (c : DispatchCycle n) :
    Except DispatchFail (RenameDispatch n) := do
  let s ← s.renameTick c
  s.iewTick p c

end RenameDispatch

end Gem5.Pipeline
