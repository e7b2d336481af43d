/-
# Prefetch queues

Embedding of the queued prefetcher (`mem/cache/prefetch/queued.cc`): the list `pfq` of
prefetches that are ready to be issued, and the list `pfqMissingTranslation` of prefetches
to another page, whose physical address the TLB has yet to find.

A translation is started with the address of its `DeferredPacket`, an element of a
`std::list`.  An entry of a list is therefore kept with the `place` of its list node; places
are never used again.  Swapping two elements exchanges the contents of two places.  Requests
are shared objects, known by their index in the list of the requests created; the TLB stores
the physical address in the request before it reports the end of the translation.

`calculatePrefetch` is the prefetcher proper, a virtual function: its result is a parameter
of `notify`.  So are the cache, which is asked whether it holds a block, and the TLB.
`missingTranslationQueueSize` is never read, and statistics are left out.
-/
import Gem5.Runs
import Gem5.Types

open Runs

namespace Gem5.Prefetch

/-! ## Prefetches -/

/-- `PrefetchInfo`, less what only the training of a prefetcher reads. -/
structure PrefetchInfo where
  address : BitVec 64
  pc : BitVec 64
  validPC : Bool
  secure : Bool
  deriving DecidableEq, Repr

def PrefetchInfo.sameAddr (i pfi : PrefetchInfo) : Bool :=
  i.address = pfi.address && i.secure = pfi.secure

/-- `PrefetchInfo(pfi, addr)` -/
def PrefetchInfo.withAddr (pfi : PrefetchInfo) (addr : BitVec 64) : PrefetchInfo :=
  { pfi with address := addr }

/-- The memory packet of a prefetch. -/
structure PrefetchPacket where
  paddr : BitVec 64
  size : ℕ
  requestorId : ℕ
  secure : Bool
  pc : Option (BitVec 64)
  deriving DecidableEq, Repr

/-- A request for a translation.  The TLB fills in `paddr`. -/
structure TranslationRequest where
  vaddr : BitVec 64
  size : ℕ
  requestorId : ℕ
  pc : BitVec 64
  contextId : ℕ
  paddr : Option (BitVec 64)
  deriving DecidableEq, Repr

/-- `Queued::DeferredPacket` -/
structure DeferredPacket where
  pfInfo : PrefetchInfo
  tick : ℕ
  pkt : Option PrefetchPacket
  priority : ℤ
  translationRequest : Option ℕ
  tc : Option ℕ
  ongoingTranslation : Bool
  deriving DecidableEq, Repr

/-- `DeferredPacket(this, pfi, t, prio)` -/
def DeferredPacket.new (pfi : PrefetchInfo) (t : ℕ) (prio : ℤ) : DeferredPacket :=
  ⟨pfi, t, none, prio, none, none, false⟩

/-- An element of a list of deferred packets, with its address. -/
structure Node where
  place : ℕ
  dp : DeferredPacket
  deriving DecidableEq, Repr

/-- What stops the simulator. -/
inductive PrefetchFail where
  /-- `assert(translationRequest != nullptr)` -/
  | noTranslationRequest
  /-- a deferred packet that has been erased is used -/
  | freedPacket
  /-- `assert(ongoingTranslation)` -/
  | notOngoing
  /-- `assert(it != pfqMissingTranslation.end())` -/
  | notInQueue
  /-- `getPaddr()` of a request that has not been translated -/
  | notTranslated
  /-- the TLB is the null pointer -/
  | noTlb
  /-- the TLB reports a translation it was not asked for -/
  | notStarted
  /-- "Prefetch queue is both full and empty!" -/
  | fullAndEmpty
  /-- "Prefetch queue is full with 1 element!" -/
  | fullWithOne
  /-- `assert(pkt != nullptr)` -/
  | noPacket
  /-- `getVaddr()`, `getPaddr()` and `getPC()` of an access that has none -/
  | noVaddr
  | noPaddr
  | noPC
  deriving DecidableEq, Repr

/-- The failures of the bookkeeping of translations. -/
def PrefetchFail.ofTranslation : PrefetchFail → Bool
  | .noTranslationRequest | .freedPacket | .notOngoing | .notInQueue | .notTranslated => true
  | _ => false

/-- The parameters of a queued prefetcher. -/
structure Params where
  blkSize : BitVec 64
  pageBytes : BitVec 64
  requestorId : ℕ
  queueSize : ℕ
  latency : ℕ
  clockPeriod : ℕ
  queueSquash : Bool
  queueFilter : Bool
  cacheSnoop : Bool
  tagPrefetch : Bool
  useVirtualAddresses : Bool
  throttleControlPct : ℕ
  hasTlb : Bool

def Params.blockAddress (p : Params) (a : BitVec 64) : BitVec 64 := a &&& ~~~(p.blkSize - 1)

def Params.samePage (p : Params) (a b : BitVec 64) : Bool :=
  a &&& ~~~(p.pageBytes - 1) = b &&& ~~~(p.pageBytes - 1)

/-- What the prefetcher reads of the rest of the system: the time, the contents of the cache
and its miss queue, and the count of useful prefetches. -/
structure Env where
  curTick : ℕ
  inCache : BitVec 64 → Bool → Bool
  inMissQueue : BitVec 64 → Bool → Bool
  usefulPrefetches : ℕ

def Env.redundant (env : Env) (addr : BitVec 64) (secure : Bool) : Bool :=
  env.inCache addr secure || env.inMissQueue addr secure

/-- `DeferredPacket::createPkt(paddr, blk_size, requestor_id, tag_prefetch, t)` -/
def DeferredPacket.createPkt (p : Params) (dp : DeferredPacket) (paddr : BitVec 64) (t : ℕ) :
    DeferredPacket :=
  let pc := if p.tagPrefetch && dp.pfInfo.validPC then some dp.pfInfo.pc else none
  { dp with pkt := some ⟨paddr, p.blkSize.toNat, p.requestorId, dp.pfInfo.secure, pc⟩, tick := t }

/-! ## The lists -/

/-- The priority of the entry an iterator points to. -/
def priorityAt (q : List Node) (it : ℕ) : Option ℤ := q[it]?.map (·.dp.priority)

/-- The loop of `addToQueue` that looks for the oldest entry in the level of priority of the
last one. -/
def oldest (q : List Node) : ℕ → ℕ
  | 0 => 0
  | prev + 1 => if priorityAt q prev = priorityAt q (prev + 1) then oldest q prev else prev + 1

/-- The entry that `addToQueue` removes from a full queue. -/
def victim (q : List Node) : ℕ := oldest q (q.length - 1)

/-- `dpp > *it` -/
def above (dpp : DeferredPacket) (q : List Node) (it : ℕ) : Bool :=
  match q[it]? with
  | some n => dpp.priority > n.dp.priority
  | none => false

/-- `do { --it; } while (it != queue.begin() && dpp > *it);` -/
def spot (dpp : DeferredPacket) (q : List Node) : ℕ → ℕ
  | 0 => 0
  | it + 1 => if it ≠ 0 && above dpp q it then spot dpp q it else it

/-- The place in the list where `addToQueue` inserts a packet. -/
def position (dpp : DeferredPacket) (q : List Node) : ℕ :=
  if q.length = 0 || !above dpp q (q.length - 1) then q.length
  else
    let it := spot dpp q q.length
    if it = 0 && !above dpp q it then it + 1 else it

/-- `addToQueue(queue, dpp)`; `place` is the address of the new list node. -/
def addToQueue (p : Params) (q : List Node) (place : ℕ) (dpp : DeferredPacket) :
    Except PrefetchFail (List Node) := do
  if q.length = p.queueSize then
    require .fullAndEmpty (q.length ≠ 0)
    require .fullWithOne (q.length ≠ 1)
    let q := q.eraseIdx (victim q)
    return q.insertIdx (position dpp q) ⟨place, dpp⟩
  else return q.insertIdx (position dpp q) ⟨place, dpp⟩

/-- `std::swap(*it, *prev)` -/
def swapEntries (q : List Node) (it prev : ℕ) : List Node :=
  match q[it]?, q[prev]? with
  | some a, some b => (q.set it { a with dp := b.dp }).set prev { b with dp := a.dp }
  | _, _ => q

/-- The loop of `alreadyInQueue` that moves an entry towards the head of the queue. -/
def moveUp (q : List Node) (it : ℕ) : ℕ → List Node
  | 0 => q
  | prev + 1 =>
      match q[it]? with
      | some n => if above n.dp q prev then moveUp (swapEntries q it prev) prev prev
          else moveUp q it prev
      | none => q

/-- The loop of `alreadyInQueue` that looks for an address: whether it was found, and where
the iterator stands afterwards.  It has gone one past the entry that was found. -/
def findAddr (pfi : PrefetchInfo) : List Node → Bool × ℕ
  | [] => (false, 0)
  | n :: q =>
      if n.dp.pfInfo.sameAddr pfi then (true, 1)
      else ((findAddr pfi q).1, (findAddr pfi q).2 + 1)

/-- `alreadyInQueue(queue, pfi, priority)` -/
def alreadyInQueue (q : List Node) (pfi : PrefetchInfo) (priority : ℤ) : Bool × List Node :=
  let (found, it) := findAddr pfi q
  match q[it]? with
  | some n =>
      if n.dp.priority < priority then
        (found, moveUp (q.set it { n with dp := { n.dp with priority := priority } }) it it)
      else (found, q)
  | none => (found, q)

/-! ## The prefetcher -/

/-- A call of `translateTiming` that has not been answered: the deferred packet, by its
address, and the request.  `pfInfo` remembers which prefetch the packet was. -/
structure Translation where
  place : ℕ
  request : ℕ
  pfInfo : PrefetchInfo
  deriving DecidableEq, Repr

/-- The end of a translation. -/
inductive TlbAnswer where
  | fault
  | translated (paddr : BitVec 64)
  deriving DecidableEq, Repr

/-- What became of a translation: the packet its end put in `pfq`, if any. -/
structure Completion where
  translation : Translation
  answer : TlbAnswer
  queued : Option DeferredPacket
  deriving DecidableEq, Repr

/-- `Queued`, with the requests created, the translations the TLB is working on and the
record of those that ended. -/
structure Queued where
  pfq : List Node
  pfqMissingTranslation : List Node
  issuedPrefetches : ℕ
  nextPlace : ℕ
  requests : List TranslationRequest
  inTlb : List Translation
  completions : List Completion
  deriving DecidableEq, Repr

namespace Queued

def init : Queued := ⟨[], [], 0, 0, [], [], []⟩

/-- The deferred packet waiting for a translation at an address. -/
def entry (s : Queued) (place : ℕ) : Option Node :=
  s.pfqMissingTranslation.find? (·.place = place)

/-- `ongoingTranslation = b` in the packet at an address. -/
def setOngoing (s : Queued) (place : ℕ) (b : Bool) : Queued :=
  { s with pfqMissingTranslation := s.pfqMissingTranslation.map fun n =>
      if n.place = place then { n with dp := { n.dp with ongoingTranslation := b } } else n }

/-- `addToQueue(pfq, dpp)` -/
def addToPfq (p : Params) (s : Queued) (dpp : DeferredPacket) : Except PrefetchFail Queued := do
  let pfq ← addToQueue p s.pfq s.nextPlace dpp
  return { s with pfq := pfq, nextPlace := s.nextPlace + 1 }

/-- `addToQueue(pfqMissingTranslation, dpp)` -/
def addToMissing (p : Params) (s : Queued) (dpp : DeferredPacket) : Except PrefetchFail Queued := do
  let q ← addToQueue p s.pfqMissingTranslation s.nextPlace dpp
  return { s with pfqMissingTranslation := q, nextPlace := s.nextPlace + 1 }

/-! ### Translations -/

/-- `translationComplete(dp, failed)`, with the packet that was put in `pfq`. -/
def translationComplete (p : Params) (env : Env) (s : Queued) (place : ℕ) (failed : Bool) :
    Except PrefetchFail (Queued × Option DeferredPacket) := do
  let it ← orFail .notInQueue (s.entry place)
  let erased := s.pfqMissingTranslation.eraseP (·.place = place)
  if failed then return ({ s with pfqMissingTranslation := erased }, none)
  else
    let r ← orFail .noTranslationRequest it.dp.translationRequest
    let req ← orFail .noTranslationRequest s.requests[r]?
    let paddr ← orFail .notTranslated req.paddr
    if p.cacheSnoop && env.redundant paddr it.dp.pfInfo.secure then
      return ({ s with pfqMissingTranslation := erased }, none)
    else
      let dp := it.dp.createPkt p paddr (env.curTick + p.clockPeriod * p.latency)
      let s ← s.addToPfq p dp
      return ({ s with pfqMissingTranslation := erased }, some dp)

/-- `DeferredPacket::finish(fault, ..)` -/
def finish (p : Params) (env : Env) (s : Queued) (place : ℕ) (failed : Bool) :
    Except PrefetchFail (Queued × Option DeferredPacket) := do
  let n ← orFail .freedPacket (s.entry place)
  require .notOngoing n.dp.ongoingTranslation
  (s.setOngoing place false).translationComplete p env place failed

/-- The TLB is done with a translation and has filled in the request. -/
def filled (s : Queued) (t : Translation) : TlbAnswer → Queued
  | .fault => { s with inTlb := s.inTlb.erase t }
  | .translated paddr =>
      { s with
        inTlb := s.inTlb.erase t
        requests := s.requests.modify t.request fun r => { r with paddr := some paddr } }

/-- The TLB answers a translation: it fills in the request and calls `finish`. -/
def answer (p : Params) (env : Env) (s : Queued) (t : Translation) (a : TlbAnswer) :
    Except PrefetchFail Queued := do
  let (s, queued) ← (s.filled t a).finish p env t.place (a = .fault)
  return { s with completions := s.completions ++ [⟨t, a, queued⟩] }

/-- `DeferredPacket::startTranslation(tlb)`.  `translateTiming` may answer at once. -/
def startTranslation (p : Params) (env : Env) (tlb : ℕ → Option TlbAnswer) (s : Queued)
    (place : ℕ) : Except PrefetchFail Queued := do
  let n ← orFail .freedPacket (s.entry place)
  let r ← orFail .noTranslationRequest n.dp.translationRequest
  if n.dp.ongoingTranslation then return s
  else
    require .noTlb p.hasTlb
    let t : Translation := ⟨place, r, n.dp.pfInfo⟩
    let s := s.setOngoing place true
    let s := { s with inTlb := s.inTlb ++ [t] }
    match tlb r with
    | none => return s
    | some a => s.answer p env t a

/-- `++it` in `pfqMissingTranslation`, from the entry at an address. -/
def after (place : ℕ) : List Node → Option ℕ
  | [] => none
  | n :: q => if n.place = place then q.head?.map (·.place) else after place q

/-- The loop of `processMissingTranslations`. -/
def processFrom (p : Params) (env : Env) (tlb : ℕ → Option TlbAnswer) (s : Queued) :
    ℕ → Option ℕ → Except PrefetchFail Queued
  | 0, _ => .ok s
  | _, none => .ok s
  | max + 1, some place => do
      let it := after place s.pfqMissingTranslation
      let s ← s.startTranslation p env tlb place
      s.processFrom p env tlb max it

/-- `processMissingTranslations(max)` -/
def processMissingTranslations (p : Params) (env : Env) (tlb : ℕ → Option TlbAnswer) (s : Queued)
    (max : ℕ) : Except PrefetchFail Queued :=
  s.processFrom p env tlb max (s.pfqMissingTranslation.head?.map (·.place))

/-- If `pfq` is empty, `getPacket` first attempts to fill it from the missing translations. -/
def refill (p : Params) (env : Env) (tlb : ℕ → Option TlbAnswer) (s : Queued) :
    Except PrefetchFail Queued :=
  if s.pfq.isEmpty then s.processMissingTranslations p env tlb p.queueSize else .ok s

/-- `getPacket()` -/
def getPacket (p : Params) (env : Env) (tlb : ℕ → Option TlbAnswer) (s : Queued) :
    Except PrefetchFail (Queued × Option PrefetchPacket) := do
  let s ← s.refill p env tlb
  match s.pfq with
  | [] => return (s, none)
  | front :: pfq =>
      let s := { s with pfq := pfq, issuedPrefetches := s.issuedPrefetches + 1 }
      require .noPacket front.dp.pkt.isSome
      let s ← s.processMissingTranslations p env tlb (unsignedSub p.queueSize pfq.length)
      return (s, front.dp.pkt)

/-! ### New prefetches -/

/-- The access that trains the prefetcher, as far as `insert` reads its request. -/
structure Access where
  vaddr : Option (BitVec 64)
  paddr : Option (BitVec 64)
  contextId : Option ℕ
  deriving DecidableEq, Repr

/-- What `insert` finds out about the address of a prefetch. -/
inductive Target where
  | drop
  | physical (paddr : BitVec 64)
  | translate (request : TranslationRequest)
  deriving DecidableEq, Repr

/-- `createPrefetchRequest(addr, pfi, pkt)` -/
def createPrefetchRequest (p : Params) (addr : BitVec 64) (pfi : PrefetchInfo) (contextId : ℕ) :
    Except PrefetchFail TranslationRequest := do
  require .noPC pfi.validPC
  return ⟨addr, p.blkSize.toNat, p.requestorId, pfi.pc, contextId, none⟩

/-- The address the prefetcher was trained with. -/
def origAddr (p : Params) (pkt : Access) : Except PrefetchFail (BitVec 64) :=
  if p.useVirtualAddresses then orFail .noVaddr pkt.vaddr else orFail .noPaddr pkt.paddr

/-- The physical address computation of `insert`. -/
def target (p : Params) (pkt : Access) (new_pfi : PrefetchInfo) : Except PrefetchFail Target := do
  let orig_addr ← origAddr p pkt
  let positive_stride : Bool := new_pfi.address ≥ orig_addr
  let stride := if positive_stride then new_pfi.address - orig_addr
    else orig_addr - new_pfi.address
  if p.samePage orig_addr new_pfi.address then
    if p.useVirtualAddresses then
      let paddr ← orFail .noPaddr pkt.paddr
      return .physical (if positive_stride then paddr + stride else paddr - stride)
    else return .physical new_pfi.address
  else match pkt.contextId with
    | none => return .drop
    | some contextId =>
        if p.useVirtualAddresses then
          return .translate (← createPrefetchRequest p new_pfi.address new_pfi contextId)
        else match pkt.vaddr with
          | some vaddr =>
              let target_vaddr := if positive_stride then vaddr + stride else vaddr - stride
              return .translate (← createPrefetchRequest p target_vaddr new_pfi contextId)
          | none => return .drop

/-- The packet of a prefetch that has to be translated. -/
def untranslated (s : Queued) (new_pfi : PrefetchInfo) (priority : ℤ) (req : TranslationRequest) :
    DeferredPacket :=
  { DeferredPacket.new new_pfi 0 priority with
    translationRequest := some s.requests.length, tc := some req.contextId }

/-- `insert`, after the filter. -/
def enqueue (p : Params) (env : Env) (pkt : Access) (s : Queued) (new_pfi : PrefetchInfo)
    (priority : ℤ) : Except PrefetchFail Queued := do
  match ← target p pkt new_pfi with
  | .drop => return s
  | .physical paddr =>
      if p.cacheSnoop && env.redundant paddr new_pfi.secure then return s
      else
        let dpp := DeferredPacket.new new_pfi 0 priority
        s.addToPfq p (dpp.createPkt p paddr (env.curTick + p.clockPeriod * p.latency))
  | .translate req =>
      let dpp := s.untranslated new_pfi priority req
      addToMissing p { s with requests := s.requests ++ [req] } dpp

/-- `insert(pkt, new_pfi, priority)` -/
def insert (p : Params) (env : Env) (pkt : Access) (s : Queued) (new_pfi : PrefetchInfo)
    (priority : ℤ) : Except PrefetchFail Queued :=
  if p.queueFilter then
    let (inPfq, pfq) := alreadyInQueue s.pfq new_pfi priority
    let s := { s with pfq := pfq }
    if inPfq then .ok s
    else
      let (inMissing, q) := alreadyInQueue s.pfqMissingTranslation new_pfi priority
      let s := { s with pfqMissingTranslation := q }
      if inMissing then .ok s
      else s.enqueue p env pkt new_pfi priority
  else s.enqueue p env pkt new_pfi priority

/-- `getMaxPermittedPrefetches(total)`, in 64-bit arithmetic. -/
def getMaxPermittedPrefetches (p : Params) (env : Env) (s : Queued) (total : ℕ) : ℕ :=
  if total > 0 && s.issuedPrefetches > 0 then
    let throttle_pfs := (total * p.throttleControlPct) % 2 ^ 64 / 100
    let left := (total + 2 ^ 64 - throttle_pfs) % 2 ^ 64
    let min_pfs := if left = 0 then 1 else left
    let rest := (total + 2 ^ 64 - min_pfs) % 2 ^ 64
    (min_pfs + (rest * env.usefulPrefetches) % 2 ^ 64 / s.issuedPrefetches) % 2 ^ 64
  else total

/-- The prefetches that the loop of `notify` inserts. -/
def candidates (p : Params) (pfi : PrefetchInfo) (max_pfs : ℕ) :
    ℕ → List (BitVec 64 × ℤ) → List (PrefetchInfo × ℤ)
  | _, [] => []
  | num_pfs, (addr, priority) :: rest =>
      let addr := p.blockAddress addr
      if p.hasTlb || p.samePage addr pfi.address then
        (pfi.withAddr addr, priority) ::
          if num_pfs + 1 = max_pfs then [] else candidates p pfi max_pfs (num_pfs + 1) rest
      else candidates p pfi max_pfs num_pfs rest

/-- The first part of `notify`: the queued prefetches of the accessed block are removed. -/
def squash (p : Params) (s : Queued) (pfi : PrefetchInfo) : Queued :=
  if p.queueSquash then
    { s with pfq := s.pfq.filter fun n =>
        !(n.dp.pfInfo.address = p.blockAddress pfi.address && n.dp.pfInfo.secure = pfi.secure) }
  else s

/-- The insertions of `notify(pkt, pfi)`; `addresses` is the result of `calculatePrefetch`. -/
def insertions (p : Params) (env : Env) (s : Queued) (pfi : PrefetchInfo)
    (addresses : List (BitVec 64 × ℤ)) : List (PrefetchInfo × ℤ) :=
  candidates p pfi (s.getMaxPermittedPrefetches p env addresses.length) 0 addresses

/-- One round of the loop of `notify`. -/
def insertStep (p : Params) (env : Env) (pkt : Access) (s : Queued) (c : PrefetchInfo × ℤ) :
    Except PrefetchFail Queued :=
  s.insert p env pkt c.1 c.2

/-- `notify(pkt, pfi)` -/
def notify (p : Params) (env : Env) (pkt : Access) (s : Queued) (pfi : PrefetchInfo)
    (addresses : List (BitVec 64 × ℤ)) : Except PrefetchFail Queued :=
  let s := s.squash p pfi
  run (insertStep p env pkt) s (s.insertions p env pfi addresses)

end Queued

/-! ## Runs -/

/-- What happens to a prefetcher: the cache reports an access or asks for a prefetch, or the
TLB answers one of the translations it is working on. -/
inductive PrefetchAction where
  | notify (env : Env) (pkt : Queued.Access) (pfi : PrefetchInfo)
      (addresses : List (BitVec 64 × ℤ))
  | getPacket (env : Env) (tlb : ℕ → Option TlbAnswer)
  | answer (env : Env) (k : ℕ) (a : TlbAnswer)

namespace Queued

def step (p : Params) (s : Queued) : PrefetchAction → Except PrefetchFail Queued
  | .notify env pkt pfi addresses => s.notify p env pkt pfi addresses
  | .getPacket env tlb => do
      let (s, _) ← s.getPacket p env tlb
      return s
  | .answer env k a => do
      let t ← orFail .notStarted s.inTlb[k]?
      s.answer p env t a

end Queued

end Gem5.Prefetch
