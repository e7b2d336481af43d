/-
# The miss queue of a cache

Embedding of the entry queue `Queue<Entry>` (`mem/cache/queue.hh`) and of the queue of miss
registers over it (`mem/cache/mshr_queue.cc`).  The storage is indexed, and the allocated, ready
and free lists hold indices; the iterators that an entry keeps into the lists are replaced by a
search for its index, and erasing an entry that is not on the list is an error.

The ready list is kept in the order of the ready times by `addToReadyList` alone.  `delay` and a
promotion inside `forceDeallocateTarget` change the ready time of an entry that is on the list.
-/
import Gem5.Mshr
import Gem5.Ordered

namespace Gem5.Mem

open Runs Ordered

/-! ## The entry queue -/

/-- `QueueEntry`, with whether the entry has targets, which the derived classes answer. -/
structure QueueEntry where
  readyTime : ℕ := 0
  order : ℕ := 0
  blkAddr : ℕ := 0
  isSecure : Bool := false
  isUncacheable : Bool := false
  inService : Bool := false
  hasTargets : Bool := false
  deriving DecidableEq, Repr

/-- The types derived from `QueueEntry`. -/
class IsQueueEntry (E : Type) where
  base : E → QueueEntry

/-- `Queue<Entry>` -/
structure Queue (E : Type) where
  numEntries : ℕ
  numReserve : ℕ
  numReserveDDIOWrite : ℕ := 0
  entries : ℕ → E
  allocatedList : List ℕ := []
  readyList : List ℕ := []
  freeList : List ℕ
  numInService : ℤ := 0
  allocated : ℤ := 0

/-- The assertions of the queue, the erasures of entries that are not on a list, and the assertions
of the registers. -/
inductive MissQueueFail where
  | noFreeEntry
  | targetsLeft
  | notAllocated
  | notReady
  | notInService
  | readyTimeInFuture
  | failedToAdd
  | noTargets
  | pendingRequest
  | notBetween
  | mshr (e : MshrFail)
  deriving DecidableEq, Repr

namespace Queue

variable {E : Type}

/-- The constructor: every entry is free. -/
def init (e : E) (numEntries reserve : ℕ) : Queue E where
  numEntries := numEntries + reserve
  numReserve := reserve
  entries := fun _ => e
  freeList := List.range (numEntries + reserve)

def isFull (q : Queue E) : Bool :=
  decide (q.allocated ≥ (q.numEntries : ℤ) - q.numReserve - q.numReserveDDIOWrite)

/-- The entry `id` replaced. -/
def setEntry (q : Queue E) (id : ℕ) (e : E) : Queue E :=
  { q with entries := Function.update q.entries id e }

variable [IsQueueEntry E]

/-- The base class of the entry `id`. -/
def entry (q : Queue E) (id : ℕ) : QueueEntry := IsQueueEntry.base (q.entries id)

def readyTime (q : Queue E) (id : ℕ) : ℕ := (q.entry id).readyTime

def inService (q : Queue E) (id : ℕ) : Bool := (q.entry id).inService

/-- The list that `addToReadyList(entry)` leaves. -/
def insertReady (q : Queue E) (id : ℕ) : Option (List ℕ) :=
  match q.readyList.getLast? with
  | none => some (q.readyList ++ [id])
  | some back =>
      if q.readyTime back ≤ q.readyTime id then some (q.readyList ++ [id])
      else insertBefore (fun i => decide (q.readyTime id < q.readyTime i)) id q.readyList

/-- `addToReadyList(entry)` -/
def addToReadyList (q : Queue E) (id : ℕ) : Except MissQueueFail (Queue E) := do
  let l ← orFail .failedToAdd (q.insertReady id)
  return { q with readyList := l }

/-- `getNext()` -/
def getNext (q : Queue E) (curTick : ℕ) : Option ℕ :=
  match q.readyList.head? with
  | none => none
  | some front => if q.readyTime front > curTick then none else some front

/-- `MaxTick` -/
def MaxTick : ℕ := 2 ^ 64 - 1

/-- `nextReadyTime()` -/
def nextReadyTime (q : Queue E) : ℕ := (q.readyList.head?.map q.readyTime).getD MaxTick

/-- `readyList.erase(entry->readyIter)` -/
def eraseReady (q : Queue E) (id : ℕ) : Except MissQueueFail (Queue E) := do
  require .notReady (decide (id ∈ q.readyList))
  return { q with readyList := q.readyList.erase id }

/-- The part of `deallocate(entry)` before the entry's own function: an entry in service is not on
the ready list. -/
def release (q : Queue E) (id : ℕ) : Except MissQueueFail (Queue E) := do
  require .notAllocated (decide (id ∈ q.allocatedList))
  let freed : Queue E :=
    { q with
      allocatedList := q.allocatedList.erase id
      freeList := id :: q.freeList
      allocated := q.allocated - 1 }
  if q.inService id then return { freed with numInService := q.numInService - 1 }
  else freed.eraseReady id

end Queue

/-! ## The queue of miss registers -/

/-- A register with the part of its base class that `MSHR` does not hold. -/
structure MissEntry where
  mshr : MSHR := {}
  blkAddr : ℕ := 0
  isSecure : Bool := false
  isUncacheable : Bool := false
  deriving DecidableEq

instance : IsQueueEntry MissEntry where
  base e :=
    { readyTime := e.mshr.readyTime
      order := e.mshr.order
      blkAddr := e.blkAddr
      isSecure := e.isSecure
      isUncacheable := e.isUncacheable
      inService := e.mshr.inService
      hasTargets := !e.mshr.targets.targets.isEmpty }

/-- `MSHRQueue`; `demandReserve` is a constant of the cache that only prefetches look at. -/
abbrev MSHRQueue := Queue MissEntry

namespace MSHRQueue

/-- An operation of the register `id`. -/
def onMshr (q : MSHRQueue) (id : ℕ) (f : MSHR → Except MshrFail MSHR) :
    Except MissQueueFail MSHRQueue := do
  let mshr ← (f (q.entries id).mshr).mapError .mshr
  return q.setEntry id { q.entries id with mshr := mshr }

/-- `allocate(blk_addr, blk_size, pkt, when_ready, order, alloc_on_fill)` -/
def allocate (q : MSHRQueue) (blkAddr blkSize : ℕ) (pkt : MissPacket) (whenReady order : ℕ)
    (allocOnFill : Bool) : Except MissQueueFail MSHRQueue := do
  let id ← orFail .noFreeEntry q.freeList.head?
  require .targetsLeft ((q.entries id).mshr.targets.targets.isEmpty)
  let mshr ← ((q.entries id).mshr.allocate blkSize pkt whenReady order allocOnFill).mapError .mshr
  let taken : MSHRQueue :=
    { q.setEntry id ⟨mshr, blkAddr, pkt.req.secure, pkt.req.uncacheable⟩ with
      freeList := q.freeList.tail
      allocatedList := q.allocatedList ++ [id]
      allocated := q.allocated + 1 }
  taken.addToReadyList id

/-- `deallocate(mshr)` -/
def deallocate (q : MSHRQueue) (id : ℕ) : Except MissQueueFail MSHRQueue := do
  let freed ← q.release id
  onMshr freed id (·.deallocate)

/-- `markInService(mshr, pending_modified_resp)` -/
def markInService (q : MSHRQueue) (id : ℕ) (pendingModifiedResp : Bool) :
    Except MissQueueFail MSHRQueue := do
  let marked ← onMshr q id (·.markInService pendingModifiedResp)
  let sent ← marked.eraseReady id
  return { sent with numInService := sent.numInService + 1 }

/-- The register goes back to waiting. -/
def clearInService (m : MSHR) : MSHR := { m with inService := false }

/-- `markPending(mshr)` -/
def markPending (q : MSHRQueue) (id : ℕ) : Except MissQueueFail MSHRQueue := do
  require .notInService (q.inService id)
  let waiting : MSHRQueue :=
    { q.setEntry id { q.entries id with mshr := clearInService (q.entries id).mshr } with
      numInService := q.numInService - 1 }
  waiting.addToReadyList id

/-- `std::list::splice` of the element `id` before the position `pos`, the end when there is
none; an element is not moved before itself. -/
def splice (l : List ℕ) (pos : Option ℕ) (id : ℕ) : List ℕ :=
  match pos with
  | none => l.erase id ++ [id]
  | some p => if p = id then l else (insertBefore (· = p) id (l.erase id)).getD l

/-- The ready time that `MSHR::delay(delay_ticks)` sets. -/
def delayed (curTick delayTicks : ℕ) : ℕ := (curTick + delayTicks) % 2 ^ 64

/-- The register `id` with another ready time. -/
def setReadyTime (q : MSHRQueue) (id readyTime : ℕ) : MSHRQueue :=
  q.setEntry id { q.entries id with
    mshr := { (q.entries id).mshr with readyTime := readyTime } }

/-- Where `delay` puts the register: the search starts at the register itself. -/
def delayPlace (q : MSHRQueue) (id : ℕ) : Option ℕ :=
  (q.readyList.dropWhile (· ≠ id)).find? fun i => decide (q.readyTime id ≥ q.readyTime i)

/-- `delay(mshr, delay_ticks)` -/
def delay (q : MSHRQueue) (id curTick delayTicks : ℕ) : Except MissQueueFail MSHRQueue := do
  require .readyTimeInFuture (decide (q.readyTime id ≤ curTick))
  require .notReady (decide (id ∈ q.readyList))
  let late := setReadyTime q id (delayed curTick delayTicks)
  return { late with readyList := splice q.readyList (delayPlace late id) id }

/-- `popTarget()` -/
def popTarget (m : MSHR) : MSHR :=
  { m with targets := { m.targets with targets := m.targets.targets.tail } }

/-- What `forceDeallocateTarget` does to the register: the first target goes, and when it was the
last one deferred targets are promoted.  The flag says that the register is left without a
target. -/
def dropTarget (m : MSHR) (curTick : ℕ) : Bool × MSHR :=
  if (popTarget m).targets.targets.isEmpty then
    (!((popTarget m).promoteDeferredTargets curTick).1,
      ((popTarget m).promoteDeferredTargets curTick).2)
  else (false, popTarget m)

/-- `forceDeallocateTarget(mshr)`, without its result, which says whether the queue is no longer
full. -/
def forceDeallocateTarget (q : MSHRQueue) (id curTick : ℕ) : Except MissQueueFail MSHRQueue := do
  require .noTargets (q.entry id).hasTargets
  let dropped := dropTarget (q.entries id).mshr curTick
  let popped := q.setEntry id { q.entries id with mshr := dropped.2 }
  if dropped.1 then deallocate popped id else return popped

/-- Whether the cache may change a register to `e` between two operations of the queue: it
allocates and serves targets and handles snoops, and it promotes the deferred targets of a register
in service.  None of these takes the register into or out of service, and only the last one changes
the ready time. -/
def between (q : MSHRQueue) (id : ℕ) (e : MissEntry) : Bool :=
  decide (id ∈ q.allocatedList) && decide (e.mshr.inService = q.inService id) &&
    (q.inService id || decide (e.mshr.readyTime = q.readyTime id))

/-- The operations of the queue, and `change` for what happens to a register between them. -/
inductive Op where
  | allocate (blkAddr blkSize : ℕ) (pkt : MissPacket) (whenReady order : ℕ) (allocOnFill : Bool)
  | markInService (id : ℕ) (pendingModifiedResp : Bool)
  | markPending (id : ℕ)
  | delay (id curTick delayTicks : ℕ)
  | forceDeallocateTarget (id curTick : ℕ)
  | deallocate (id : ℕ)
  | change (id : ℕ) (e : MissEntry)

def step (q : MSHRQueue) : Op → Except MissQueueFail MSHRQueue
  | .allocate blkAddr blkSize pkt whenReady order allocOnFill =>
      allocate q blkAddr blkSize pkt whenReady order allocOnFill
  | .markInService id pendingModifiedResp => markInService q id pendingModifiedResp
  | .markPending id => markPending q id
  | .delay id curTick delayTicks => delay q id curTick delayTicks
  | .forceDeallocateTarget id curTick => forceDeallocateTarget q id curTick
  | .deallocate id => deallocate q id
  | .change id e => do
      require .notBetween (between q id e)
      return q.setEntry id e

end MSHRQueue

end Gem5.Mem
