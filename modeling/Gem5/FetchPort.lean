/-
# Instruction fetch and the instruction cache port

Embedding of the part of `cpu/o3/fetch.cc` that all threads share: one port to the instruction
cache, one packet that waits for a retry, one flag for the blocked cache, and one event for
the faults of translations that cannot be handled at once.

The TLB and the cache are the environment.  They answer when they like, the TLB also from
inside `translateTiming`, and the cache may refuse a packet; it then owes fetch a call of
`recvReqRetry`.  `portBlocked` says that it does, and `sends` remembers for every packet whether
it was sent in that time.  Neither is a variable of the program.

The instructions themselves do not matter here: of the fetch queues the model keeps the
lengths.
-/
import Gem5.Runs

open Runs

namespace Gem5.Frontend

/-- `Fetch::ThreadStatus` -/
inductive ThreadStatus where
  | Running
  | Idle
  | Squashing
  | Blocked
  | Fetching
  | TrapPending
  | QuiescePending
  | ItlbWait
  | IcacheWaitResponse
  | IcacheWaitRetry
  | IcacheAccessComplete
  | NoGoodAddr
  deriving DecidableEq, Repr

/-- A request for a line of instructions, by its identity; `tid` is the thread of its context. -/
structure Request (n : ℕ) where
  id : ℕ
  tid : Fin n
  vaddr : BitVec 64
  deriving DecidableEq, Repr

/-- The variables of one thread. -/
structure FetchThread (n : ℕ) where
  fetchStatus : ThreadStatus
  memReq : Option (Request n)
  fetchQueue : ℕ
  fetchBufferPC : BitVec 64
  fetchBufferValid : Bool
  drain : Bool
  deriving DecidableEq, Repr

/-- A packet sent to the cache, and whether the cache owed a retry at that time. -/
structure Send (n : ℕ) where
  req : Request n
  whileBlocked : Bool
  deriving DecidableEq, Repr

/-- The fetch stage of `n` threads. -/
structure Fetch (n : ℕ) where
  thread : Fin n → FetchThread n
  cacheBlocked : Bool
  retryPkt : Option (Request n)
  retryTid : Option (Fin n)
  numInst : ℕ
  /-- the fault and the request of the event, when it is scheduled -/
  finishTranslationEvent : Option (ℕ × Request n)
  nextReq : ℕ
  inTlb : List (Request n)
  atCache : List (Request n)
  portBlocked : Bool
  sends : List (Send n)

/-- The assertions of the fetch stage, and answers nobody asked for. -/
inductive FetchFail where
  /-- `assert(retryPkt == NULL)` -/
  | retryPktSet
  /-- `assert(retryTid == InvalidThreadID)` -/
  | retryTidSet
  /-- `assert(cacheBlocked)` -/
  | cacheNotBlocked
  /-- `assert(retryTid != InvalidThreadID)` -/
  | retryTidInvalid
  /-- `assert(fetchStatus[retryTid] == IcacheWaitRetry)` -/
  | notWaitingForRetry
  /-- `assert(!finishTranslationEvent.scheduled())` -/
  | eventScheduled
  /-- `assert(numInst < fetchWidth)` -/
  | fetchWidthReached
  /-- `assert(fetchQueue[tid].size() <= fetchQueueSize)` -/
  | fetchQueueOverflow
  | notInTlb
  | notAtCache
  | notScheduled
  deriving DecidableEq, Repr

/-- The failures of what the threads share. -/
def FetchFail.ofSharing : FetchFail → Bool
  | .retryPktSet | .retryTidSet | .cacheNotBlocked | .retryTidInvalid | .notWaitingForRetry
  | .eventScheduled => true
  | _ => false

/-- The parameters of the fetch stage, and the physical memory of the system. -/
structure Params where
  fetchWidth : ℕ
  fetchQueueSize : ℕ
  fetchBufferMask : BitVec 64
  isMemAddr : BitVec 64 → Bool

/-- The answer of the TLB: a fault, or the physical address. -/
inductive TlbReply where
  | fault (code : ℕ)
  | translated (paddr : BitVec 64)
  deriving DecidableEq, Repr

namespace Fetch

variable {n : ℕ}

/-- A thread in the state of `clearStates` and `resetStage`. -/
def resetThread : FetchThread n := ⟨.Running, none, 0, 0, false, false⟩

/-- The stage after `resetStage`. -/
def init (n : ℕ) : Fetch n :=
  ⟨fun _ => resetThread, false, none, none, 0, none, 0, [], [], false, []⟩

def setThread (s : Fetch n) (tid : Fin n) (t : FetchThread n) : Fetch n :=
  { s with thread := Function.update s.thread tid t }

def setStatus (s : Fetch n) (tid : Fin n) (st : ThreadStatus) : Fetch n :=
  s.setThread tid { s.thread tid with fetchStatus := st }

/-! ## Translations -/

/-- `icachePort.sendTimingReq(pkt)` -/
def sendTimingReq (s : Fetch n) (req : Request n) (accepted : Bool) : Fetch n :=
  { s with
    sends := s.sends ++ [⟨req, s.portBlocked⟩]
    portBlocked := s.portBlocked || !accepted
    atCache := if accepted then s.atCache ++ [req] else s.atCache }

/-- `buildInst`, as far as the queue of the thread is concerned. -/
def buildInst (p : Params) (s : Fetch n) (tid : Fin n) : Except FetchFail (Fetch n) := do
  require .fetchWidthReached (s.numInst < p.fetchWidth)
  let t := s.thread tid
  require .fetchQueueOverflow (t.fetchQueue + 1 ≤ p.fetchQueueSize)
  return s.setThread tid { t with fetchQueue := t.fetchQueue + 1 }

/-- A translation that has not been overtaken by a squash. -/
def live (s : Fetch n) (req : Request n) : Bool :=
  (s.thread req.tid).fetchStatus = .ItlbWait && (s.thread req.tid).memReq = some req

/-- Fetch cannot send an instruction of the thread to decode. -/
def full (p : Params) (s : Fetch n) (tid : Fin n) : Bool :=
  !(s.numInst < p.fetchWidth) || !((s.thread tid).fetchQueue < p.fetchQueueSize)

/-- The packet is built and sent to the cache. -/
def accessCache (s : Fetch n) (req : Request n) (accepted : Bool) : Except FetchFail (Fetch n) := do
  let t := s.thread req.tid
  let s := s.setThread req.tid { t with fetchBufferPC := req.vaddr, fetchBufferValid := false }
  let s := s.sendTimingReq req accepted
  if accepted then return s.setStatus req.tid .IcacheWaitResponse
  else
    require .retryPktSet (s.retryPkt = none)
    require .retryTidSet (s.retryTid = none)
    let s := s.setStatus req.tid .IcacheWaitRetry
    return { s with retryPkt := some req, retryTid := some req.tid, cacheBlocked := true }

/-- The part of `finishTranslation` for a fault. -/
def finishFault (p : Params) (s : Fetch n) (code : ℕ) (req : Request n) :
    Except FetchFail (Fetch n) := do
  if s.full p req.tid then
    require .eventScheduled (s.finishTranslationEvent = none)
    return { s with finishTranslationEvent := some (code, req) }
  else
    let s ← s.buildInst p req.tid
    return s.setThread req.tid { s.thread req.tid with memReq := none, fetchStatus := .TrapPending }

/-- `finishTranslation(fault, mem_req)` -/
def finishTranslation (p : Params) (s : Fetch n) (req : Request n) (reply : TlbReply)
    (accepted : Bool) : Except FetchFail (Fetch n) :=
  if !s.live req then .ok s
  else match reply with
    | .translated paddr =>
        if p.isMemAddr paddr then s.accessCache req accepted
        else .ok (s.setThread req.tid
          { s.thread req.tid with fetchStatus := .NoGoodAddr, memReq := none })
    | .fault code => s.finishFault p code req

/-- `FinishTranslationEvent::process()`, called when the event is no longer scheduled. -/
def processFinishTranslation (p : Params) (s : Fetch n) (code : ℕ) (req : Request n) :
    Except FetchFail (Fetch n) := do
  require .fetchWidthReached (s.numInst < p.fetchWidth)
  finishTranslation p { s with finishTranslationEvent := none } req (.fault code) false

/-- The state of `fetchCacheLine` when it calls `translateTiming`. -/
def request (p : Params) (s : Fetch n) (tid : Fin n) (vaddr : BitVec 64) : Request n × Fetch n :=
  let req : Request n := ⟨s.nextReq, tid, vaddr &&& ~~~p.fetchBufferMask⟩
  (req, setThread { s with nextReq := s.nextReq + 1 } tid
    { s.thread tid with memReq := some req, fetchStatus := .ItlbWait })

/-- `fetchCacheLine(vaddr, tid, pc)`.  `interrupted` is `checkInterrupt(pc) &&
!delayedCommit[tid]`; `now` is the answer of the TLB if it comes at once. -/
def fetchCacheLine (p : Params) (s : Fetch n) (tid : Fin n) (vaddr : BitVec 64)
    (interrupted : Bool) (now : Option TlbReply) (accepted : Bool) :
    Except FetchFail (Fetch n × Bool) := do
  if s.cacheBlocked then return (s, false)
  else if interrupted then return (s, false)
  else
    let (req, s) := s.request p tid vaddr
    match now with
    | none => return ({ s with inTlb := s.inTlb ++ [req] }, true)
    | some reply =>
        let s ← s.finishTranslation p req reply accepted
        return (s, true)

/-! ## The cache -/

/-- `processCacheCompletion(pkt)` -/
def processCacheCompletion (s : Fetch n) (req : Request n) : Fetch n :=
  let t := s.thread req.tid
  if t.fetchStatus ≠ .IcacheWaitResponse || t.memReq ≠ some req then s
  else s.setThread req.tid
    { t with
      fetchBufferValid := true
      fetchStatus := if t.drain then .Blocked else .IcacheAccessComplete
      memReq := none }

/-- `recvReqRetry()` -/
def recvReqRetry (s : Fetch n) (accepted : Bool) : Except FetchFail (Fetch n) := do
  let s := { s with portBlocked := false }
  match s.retryPkt with
  | some req =>
      require .cacheNotBlocked s.cacheBlocked
      let retryTid ← orFail .retryTidInvalid s.retryTid
      require .notWaitingForRetry ((s.thread retryTid).fetchStatus = .IcacheWaitRetry)
      let s := s.sendTimingReq req accepted
      if accepted then
        let s := s.setStatus retryTid .IcacheWaitResponse
        return { s with retryPkt := none, retryTid := none, cacheBlocked := false }
      else return s
  | none =>
      require .retryTidSet (s.retryTid = none)
      return { s with cacheBlocked := false }

/-! ## Squashing and the rest of the cycle -/

/-- The retrying packet goes if it was from this thread. -/
def dropRetry (s : Fetch n) (tid : Fin n) : Except FetchFail (Fetch n) := do
  if s.retryTid = some tid then
    require .cacheNotBlocked s.cacheBlocked
    return { s with retryPkt := none, retryTid := none }
  else return s

/-- `doSquash(newPC, squashInst, tid)` -/
def doSquash (s : Fetch n) (tid : Fin n) : Except FetchFail (Fetch n) := do
  let t := s.thread tid
  let memReq := if t.fetchStatus = .IcacheWaitResponse || t.fetchStatus = .ItlbWait then none
    else t.memReq
  let s ← s.dropRetry tid
  return s.setThread tid { t with memReq := memReq, fetchStatus := .Squashing, fetchQueue := 0 }

/-- The end of `checkSignalsAndUpdate(tid)`, when there is no squash. -/
def updateStatus (s : Fetch n) (tid : Fin n) : Fetch n :=
  let st := (s.thread tid).fetchStatus
  if (s.thread tid).drain && st ≠ .IcacheWaitResponse && st ≠ .IcacheWaitRetry &&
      st ≠ .ItlbWait && st ≠ .QuiescePending then s.setStatus tid .Blocked
  else if st = .Blocked || st = .Squashing then s.setStatus tid .Running
  else s

/-- `fetch` finds the line it waited for. -/
def resume (s : Fetch n) (tid : Fin n) : Fetch n :=
  if (s.thread tid).fetchStatus = .IcacheAccessComplete then s.setStatus tid .Running else s

/-- `fetch` builds an instruction of a running thread. -/
def fetchInst (p : Params) (s : Fetch n) (tid : Fin n) (isQuiesce : Bool) :
    Except FetchFail (Fetch n) := do
  if (s.thread tid).fetchStatus = .Running && !s.full p tid then
    let s ← s.buildInst p tid
    let s := { s with numInst := s.numInst + 1 }
    return if isQuiesce then s.setStatus tid .QuiescePending else s
  else return s

/-- An instruction goes from the fetch queue to decode. -/
def toDecode (s : Fetch n) (tid : Fin n) : Fetch n :=
  s.setThread tid { s.thread tid with fetchQueue := (s.thread tid).fetchQueue - 1 }

end Fetch

/-! ## Runs -/

/-- What happens to the fetch stage. -/
inductive FetchAction (n : ℕ) where
  | fetchCacheLine (tid : Fin n) (vaddr : BitVec 64) (interrupted : Bool) (now : Option TlbReply)
      (accepted : Bool)
  /-- the TLB answers the `k`th translation it is working on -/
  | finishTranslation (k : ℕ) (reply : TlbReply) (accepted : Bool)
  | finishTranslationEvent
  | recvReqRetry (accepted : Bool)
  /-- the cache answers the `k`th packet it accepted -/
  | recvTimingResp (k : ℕ)
  | doSquash (tid : Fin n)
  | updateStatus (tid : Fin n)
  | resume (tid : Fin n)
  | fetchInst (tid : Fin n) (isQuiesce : Bool)
  | toDecode (tid : Fin n)
  /-- `drainStall(tid)` and `drainResume()` -/
  | setDrain (tid : Fin n) (drain : Bool)
  /-- the end of `tick()` -/
  | endTick

namespace Fetch

variable {n : ℕ}

def step (p : Params) (s : Fetch n) : FetchAction n → Except FetchFail (Fetch n)
  | .fetchCacheLine tid vaddr interrupted now accepted => do
      let (s, _) ← s.fetchCacheLine p tid vaddr interrupted now accepted
      return s
  | .finishTranslation k reply accepted => do
      let req ← orFail .notInTlb s.inTlb[k]?
      finishTranslation p { s with inTlb := s.inTlb.eraseIdx k } req reply accepted
  | .finishTranslationEvent => do
      let (code, req) ← orFail .notScheduled s.finishTranslationEvent
      s.processFinishTranslation p code req
  | .recvReqRetry accepted => s.recvReqRetry accepted
  | .recvTimingResp k => do
      let req ← orFail .notAtCache s.atCache[k]?
      return processCacheCompletion { s with atCache := s.atCache.eraseIdx k } req
  | .doSquash tid => s.doSquash tid
  | .updateStatus tid => .ok (s.updateStatus tid)
  | .resume tid => .ok (s.resume tid)
  | .fetchInst tid isQuiesce => s.fetchInst p tid isQuiesce
  | .toDecode tid => .ok (s.toDecode tid)
  | .setDrain tid drain => .ok (s.setThread tid { s.thread tid with drain := drain })
  | .endTick => .ok { s with numInst := 0 }

end Fetch

end Gem5.Frontend
