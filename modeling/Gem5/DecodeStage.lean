/-
# The decode stage and its handshake with fetch

Embedding of the decode stage (`cpu/o3/decode.cc`) and of what fetch keeps of its block signals
(`Fetch::checkSignalsAndUpdate`, `cpu/o3/fetch.cc`).  Decode takes the instructions of a thread in
order, from the skid buffer or from fetch, until the width that all threads share is used up; what is
left goes to the skid buffer, and fetch is told to block the thread.

What fetch delivers, the signals of rename and commit and the marks of squashed instructions are the
input of a cycle.  In a cycle fetch is ticked before decode, so that it reads a signal at the
earliest in the next one.
-/
import Gem5.Runs
import Gem5.ThreadRemoval

open Runs

namespace Gem5.Pipeline

/-! ## Data -/

/-- A dynamic instruction, as far as decode looks at it. -/
structure FetchedInst (n : ℕ) where
  tid : Fin n
  seqNum : InstSeqNum
  isControl : Bool := false
  isDirectCtrl : Bool := false
  isUncondCtrl : Bool := false
  predTaken : Bool := false
  branchTarget : BitVec 64 := 0
  predTarg : BitVec 64 := 0
  deriving DecidableEq

/-- The branch target that decode computes is not the predicted one. -/
def FetchedInst.mispredicted {n : ℕ} (inst : FetchedInst n) : Bool :=
  inst.isDirectCtrl && (inst.isUncondCtrl || inst.predTaken) &&
    inst.branchTarget != inst.predTarg

/-- The signals of decode to fetch for one thread in one cycle. -/
structure BlockSignals where
  decodeBlock : Bool := false
  decodeUnblock : Bool := false
  deriving DecidableEq, Repr

/-- The variables of decode for one thread, and the signals it is raising.  `log` is not in the
source: it records the instructions that have left decode, and whether they went to rename. -/
structure DecodeLane (n : ℕ) where
  insts : List (FetchedInst n) := []
  skidBuffer : List (FetchedInst n) := []
  decodeStatus : DecodeStatus := .Idle
  stallsRename : Bool := false
  toFetch : BlockSignals := {}
  log : List (FetchedInst n × Bool) := []
  deriving DecidableEq

/-- The parameters of the two stages and the active threads, each listed once. -/
structure DecodeParams (n : ℕ) where
  decodeWidth : ℕ
  fetchWidth : ℕ
  fetchToDecodeDelay : ℕ
  decodeToFetchDelay : ℕ
  fullSystem : Bool
  activeThreads : List (Fin n)
  decodeToFetchDelay_pos : 0 < decodeToFetchDelay
  activeThreads_nodup : activeThreads.Nodup

/-- `skidBufferMax`, as the constructor of decode sets it. -/
def DecodeParams.skidBufferMax {n : ℕ} (p : DecodeParams n) : ℕ :=
  (p.fetchToDecodeDelay + 1) * p.fetchWidth

/-- What a cycle receives from outside the two stages. -/
structure DecodeCycle (n : ℕ) where
  fromFetch : List (FetchedInst n)
  isSquashed : FetchedInst n → Bool
  renameBlock : Fin n → Bool
  renameUnblock : Fin n → Bool
  commitSquash : Fin n → Bool

/-- The assertions of decode, its panic, and the two assertions of fetch. -/
inductive DecodeFail where
  | skidBufferMax
  | skidsEmpty
  | stallsRename
  | predictedAsBranch
  | unblockNotStalled
  | blockAndUnblock
  deriving DecidableEq, Repr

variable {n : ℕ}

/-! ## One thread of decode -/

namespace DecodeLane

/-- `skidInsert(tid)` -/
def skidInsert (p : DecodeParams n) (th : DecodeLane n) : Except DecodeFail (DecodeLane n) := do
  let skidBuffer := th.skidBuffer ++ th.insts
  require .skidBufferMax (skidBuffer.length ≤ p.skidBufferMax)
  return { th with insts := [], skidBuffer := skidBuffer }

/-- The status and the signal of a thread that blocks. -/
def setBlocked (th : DecodeLane n) : DecodeLane n :=
  if th.decodeStatus ≠ .Blocked then
    if th.toFetch.decodeUnblock then
      { th with
        decodeStatus := .Blocked
        toFetch := { th.toFetch with decodeUnblock := false } }
    else
      { th with
        decodeStatus := .Blocked
        toFetch := { th.toFetch with decodeBlock := true } }
  else th

/-- `block(tid)` -/
def block (p : DecodeParams n) (th : DecodeLane n) : Except DecodeFail (DecodeLane n) := do
  let th ← th.skidInsert p
  return th.setBlocked

/-- `unblock(tid)` -/
def unblock (th : DecodeLane n) : DecodeLane n :=
  if th.skidBuffer.isEmpty then
    { th with
      toFetch := { th.toFetch with decodeUnblock := true }
      decodeStatus := .Running }
  else th

/-- The end of both squashes: the status, and the two queues are cleared. -/
def clear (th : DecodeLane n) : DecodeLane n :=
  { th with
    decodeStatus := .Squashing
    insts := []
    skidBuffer := []
    log := th.log ++ (th.skidBuffer ++ th.insts).map fun inst => (inst, false) }

/-- The unblock signal of a squash of a blocked thread. -/
def squashUnblock (th : DecodeLane n) : DecodeLane n :=
  if th.decodeStatus = .Blocked ∨ th.decodeStatus = .Unblocking then
    { th with toFetch := { th.toFetch with decodeUnblock := true } }
  else th

/-- `squash(inst, tid)`, for a branch that decode finds mispredicted. -/
def squashMispredicted (th : DecodeLane n) : DecodeLane n := th.squashUnblock.clear

/-- `squash(tid)`, for a squash from commit. -/
def squash (p : DecodeParams n) (th : DecodeLane n) : DecodeLane n :=
  if (th.decodeStatus = .Blocked ∨ th.decodeStatus = .Unblocking) ∧ !p.fullSystem ∧
      th.toFetch.decodeBlock then
    { th with toFetch := { th.toFetch with decodeBlock := false } }.clear
  else th.squashUnblock.clear

/-- `readStallSignals(tid)` -/
def readStallSignals (c : DecodeCycle n) (tid : Fin n) (th : DecodeLane n) :
    Except DecodeFail (DecodeLane n) :=
  let stalled := c.renameBlock tid || th.stallsRename
  if c.renameUnblock tid then do
    require .stallsRename stalled
    return { th with stallsRename := false }
  else .ok { th with stallsRename := stalled }

/-- `checkSignalsAndUpdate(tid)`, after the stall signals have been read. -/
def updateStatus (p : DecodeParams n) (c : DecodeCycle n) (tid : Fin n) (th : DecodeLane n) :
    Except DecodeFail (DecodeLane n) :=
  if c.commitSquash tid then .ok (th.squash p)
  else if th.stallsRename then th.block p
  else if th.decodeStatus = .Blocked then .ok { th with decodeStatus := .Unblocking }.unblock
  else if th.decodeStatus = .Squashing then .ok { th with decodeStatus := .Running }
  else .ok th

/-- `checkSignalsAndUpdate(tid)` -/
def checkSignalsAndUpdate (p : DecodeParams n) (c : DecodeCycle n) (tid : Fin n)
    (th : DecodeLane n) : Except DecodeFail (DecodeLane n) := do
  let th ← th.readStallSignals c tid
  th.updateStatus p c tid

/-- What the loop of `decodeInsts` leaves: the instructions not taken, those taken with a flag for
those that went to rename, and whether it stopped at a mispredicted branch. -/
structure LoopEnd (n : ℕ) where
  rest : List (FetchedInst n)
  taken : List (FetchedInst n × Bool)
  mispredict : Bool

/-- The loop of `decodeInsts`, with the width that is left. -/
def decodeLoop (c : DecodeCycle n) : ℕ → List (FetchedInst n) → Except DecodeFail (LoopEnd n)
  | _, [] => .ok ⟨[], [], false⟩
  | 0, insts => .ok ⟨insts, [], false⟩
  | w + 1, inst :: insts =>
      if c.isSquashed inst then do
        let out ← decodeLoop c (w + 1) insts
        return { out with taken := (inst, false) :: out.taken }
      else if inst.predTaken && !inst.isControl then .error .predictedAsBranch
      else if inst.mispredicted then .ok ⟨insts, [(inst, true)], true⟩
      else do
        let out ← decodeLoop c w insts
        return { out with taken := (inst, true) :: out.taken }

/-- The queue that decode takes from. -/
def toDecode (unblocking : Bool) (th : DecodeLane n) : List (FetchedInst n) :=
  if unblocking then th.skidBuffer else th.insts

/-- Writes back what the loop has left of that queue. -/
def setToDecode (unblocking : Bool) (out : LoopEnd n) (th : DecodeLane n) : DecodeLane n :=
  if unblocking then { th with skidBuffer := out.rest, log := th.log ++ out.taken }
  else { th with insts := out.rest, log := th.log ++ out.taken }

/-- `block(tid)` unless everything has been decoded. -/
def blockRest (p : DecodeParams n) (unblocking : Bool) (th : DecodeLane n) :
    Except DecodeFail (DecodeLane n) :=
  if (th.toDecode unblocking).isEmpty then .ok th else th.block p

/-- The instructions of a list of taken ones that went to rename. -/
def sentOf (taken : List (FetchedInst n × Bool)) : List (FetchedInst n) :=
  (taken.filter (·.2)).map (·.1)

/-- `decodeInsts(tid)`; the second part of the result is what it appends to the slot of rename. -/
def decodeInsts (p : DecodeParams n) (c : DecodeCycle n) (toRenameIndex : ℕ) (th : DecodeLane n) :
    Except DecodeFail (DecodeLane n × List (FetchedInst n)) :=
  let unblocking := decide (th.decodeStatus = .Unblocking)
  if (th.toDecode unblocking).isEmpty then .ok (th, [])
  else do
    let out ← decodeLoop c (p.decodeWidth - toRenameIndex) (th.toDecode unblocking)
    let th := th.setToDecode unblocking out
    let th := if out.mispredict then th.squashMispredicted else th
    let th ← th.blockRest p unblocking
    return (th, sentOf out.taken)

/-- The rest of the unblocking branch of `decode`. -/
def finishUnblocking (p : DecodeParams n) (fetchInstsValid : Bool) (th : DecodeLane n) :
    Except DecodeFail (DecodeLane n) :=
  if fetchInstsValid then do
    let th ← th.skidInsert p
    return th.unblock
  else .ok th.unblock

/-- `decode(tid)`; `skidsEmpty` says whether the skid buffers of all active threads are empty. -/
def decode (p : DecodeParams n) (c : DecodeCycle n) (toRenameIndex : ℕ) (skidsEmpty : Bool)
    (th : DecodeLane n) : Except DecodeFail (DecodeLane n × List (FetchedInst n)) :=
  match th.decodeStatus with
  | .Running | .Idle => th.decodeInsts p c toRenameIndex
  | .Unblocking => do
      require .skidsEmpty (!skidsEmpty)
      let (th, sent) ← th.decodeInsts p c toRenameIndex
      let th ← th.finishUnblocking p (!c.fromFetch.isEmpty)
      return (th, sent)
  | _ => .ok (th, [])

end DecodeLane

/-! ## The two stages -/

/-- What fetch keeps of the block signals, the slots on the way to it with the oldest first, and the
variables of decode.  `delivered` and `sent` are not in the source: they record what decode has
received and what it has sent to rename. -/
structure FetchDecode (n : ℕ) where
  stallsDecode : Fin n → Bool
  signals : List (Fin n → BlockSignals)
  lane : Fin n → DecodeLane n
  delivered : List (FetchedInst n)
  sent : List (FetchedInst n)

namespace FetchDecode

/-- The processor before its first cycle. -/
def initial (p : DecodeParams n) : FetchDecode n where
  stallsDecode := fun _ => false
  signals := List.replicate p.decodeToFetchDelay fun _ => {}
  lane := fun _ => {}
  delivered := []
  sent := []

/-- The stall signals in `Fetch::checkSignalsAndUpdate`, with the two assertions. -/
def readBlockSignals (stalled : Bool) (fromDecode : BlockSignals) : Except DecodeFail Bool :=
  let stalled := fromDecode.decodeBlock || stalled
  if fromDecode.decodeUnblock then do
    require .unblockNotStalled stalled
    require .blockAndUnblock (!fromDecode.decodeBlock)
    return false
  else .ok stalled

/-- What fetch does for one active thread. -/
def fetchThread (fromDecode : Fin n → BlockSignals) (stallsDecode : Fin n → Bool) (tid : Fin n) :
    Except DecodeFail (Fin n → Bool) := do
  let stalled ← readBlockSignals (stallsDecode tid) (fromDecode tid)
  return Function.update stallsDecode tid stalled

/-- The stall signals in `Fetch::tick`. -/
def fetchTick (p : DecodeParams n) (s : FetchDecode n) : Except DecodeFail (FetchDecode n) := do
  let stallsDecode ← p.activeThreads.foldlM (fetchThread (s.signals.headD fun _ => {}))
    s.stallsDecode
  return { s with stallsDecode := stallsDecode }

/-- The threads of decode and the slot of rename, while decode is ticked. -/
structure Tick (n : ℕ) where
  lane : Fin n → DecodeLane n
  toRename : List (FetchedInst n)

/-- `skidsEmpty()` -/
def skidsEmpty (p : DecodeParams n) (lane : Fin n → DecodeLane n) : Bool :=
  p.activeThreads.all fun tid => (lane tid).skidBuffer.isEmpty

/-- What decode does for one active thread. -/
def decodeThread (p : DecodeParams n) (c : DecodeCycle n) (s : Tick n) (tid : Fin n) :
    Except DecodeFail (Tick n) := do
  let th ← (s.lane tid).checkSignalsAndUpdate p c tid
  let lane := Function.update s.lane tid th
  let (th, sent) ← th.decode p c s.toRename.length (skidsEmpty p lane)
  return { lane := Function.update s.lane tid th, toRename := s.toRename ++ sent }

/-- `sortInsts()`, at the start of a cycle in which nothing has been signalled yet. -/
def sortInsts (lane : Fin n → DecodeLane n) (fromFetch : List (FetchedInst n)) (tid : Fin n) :
    DecodeLane n :=
  { lane tid with
    insts := (lane tid).insts ++ fromFetch.filter (·.tid = tid)
    toFetch := {} }

/-- `Decode::tick` -/
def decodeTick (p : DecodeParams n) (s : FetchDecode n) (c : DecodeCycle n) :
    Except DecodeFail (FetchDecode n) := do
  let t ← p.activeThreads.foldlM (decodeThread p c) ⟨sortInsts s.lane c.fromFetch, []⟩
  return { s with
    signals := (s.signals ++ [fun tid => (t.lane tid).toFetch]).tail
    lane := t.lane
    delivered := s.delivered ++ c.fromFetch
    sent := s.sent ++ t.toRename }

/-- One cycle of the two stages. -/
def cycle (p : DecodeParams n) (s : FetchDecode n) (c : DecodeCycle n) :
    Except DecodeFail (FetchDecode n) := do
  let s ← s.fetchTick p
  s.decodeTick p c

end FetchDecode

end Gem5.Pipeline
