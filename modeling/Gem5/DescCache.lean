/-
# The descriptor caches of the network card

Embedding of `IGbE::DescCache` (`dev/net/i8254xGBe.cc`, `dev/net/i8254xGBe.hh`): the card
fetches descriptors from a ring in memory that the driver fills, uses them, and writes them
back.  A fetch and a writeback each start with a delay, transfer their block by DMA and end
with an event.  The slot a DMA starts at, the head or `cachePnt`, only moves when the
transfer is complete.  The descriptors themselves are of any type; what the card writes
into one while it uses it is an argument.
-/
import Gem5.RingIndex
import Gem5.Runs

namespace Gem5.IGbE

open Runs RingIndex

/-! ## The cache -/

/-- Where a fetch or a writeback is: not started, its delay event scheduled, its DMA under
way, or its completion event scheduled. -/
inductive Transfer where
  | idle
  | delayed
  | moving
  | moved
  deriving DecidableEq, Repr

/-- `DescCache`; the registers it looks at are an argument of its functions. -/
structure DescCache (T : Type) where
  usedCache : List T
  unusedCache : List T
  fetchBuf : List T
  wbBuf : List T
  cachePnt : ℕ
  size : ℕ
  curFetching : ℕ
  wbOut : ℕ
  moreToWb : Bool
  wbAlignment : ℕ
  fetch : Transfer
  wb : Transfer
  deriving Repr

/-- `descHead`, `descTail` and `descLen`. -/
structure Regs where
  head : ℕ
  tail : ℕ
  len : ℕ
  deriving DecidableEq, Repr

/-- The assertions, and the access behind the used descriptors. -/
inductive Fault where
  /-- `assert(!fetchDelayEvent.scheduled())` -/
  | fetchScheduled
  /-- `assert(!wbDelayEvent.scheduled())` -/
  | wbScheduled
  /-- `assert(curFetching)` -/
  | nothingToFetch
  /-- `assert(cachePnt <= descLen())` -/
  | pastTheEnd
  /-- `assert(usedCache.size())`, and `usedCache[x]` -/
  | noUsed
  /-- `assert(wbOut)` -/
  | nothingToWrite
  deriving DecidableEq, Repr

namespace DescCache

variable {T : Type}

/-- The constructor. -/
def create (size : ℕ) : DescCache T where
  usedCache := []
  unusedCache := []
  fetchBuf := []
  wbBuf := []
  cachePnt := 0
  size := size
  curFetching := 0
  wbOut := 0
  moreToWb := false
  wbAlignment := 0
  fetch := .idle
  wb := .idle

/-- `max_to_wb & ~wbAlignment`, in 64 bits -/
def alignDown (max_to_wb wbAlignment : ℕ) : ℕ :=
  max_to_wb &&& (2 ^ 64 - 1 - wbAlignment % 2 ^ 64)

/-- Whether a writeback reaches the end of the ring. -/
def reachesEnd (c : DescCache T) (regs : Regs) : Bool :=
  c.usedCache.length + regs.head ≥ regs.len

/-- The descriptors that `writeback` decides to write. -/
def toWrite (c : DescCache T) (regs : Regs) (aMask : ℕ) : ℕ :=
  if c.reachesEnd regs then regs.len - regs.head
  else if aMask ≠ 0 then alignDown c.usedCache.length aMask
  else c.usedCache.length

/-- `writeback` -/
def writeback (c : DescCache T) (regs : Regs) (aMask : ℕ) : Except Fault (DescCache T) :=
  if c.wbOut ≠ 0 then
    if aMask < c.wbAlignment then .ok { c with moreToWb := true, wbAlignment := aMask }
    else .ok c
  else
    let c' := { c with moreToWb := c.reachesEnd regs, wbAlignment := aMask }
    if c.toWrite regs aMask = 0 then .ok c'
    else do
      require .wbScheduled (c.wb ≠ .delayed)
      return { c' with wbOut := c.toWrite regs aMask, wb := .delayed }

/-- `writeback1`; `running` is false while the card drains. -/
def writeback1 (c : DescCache T) (running : Bool) : Except Fault (DescCache T) :=
  if running then do
    require .noUsed (c.wbOut ≤ c.usedCache.length)
    require .nothingToWrite (c.wbOut ≠ 0)
    return { c with wbBuf := c.usedCache.take c.wbOut, wb := .moving }
  else .ok c

/-- The descriptors that `fetchDescriptors` decides to fetch: those up to the tail, or up to
the end of the ring, as far as the cache has room. -/
def toFetch (c : DescCache T) (regs : Regs) : ℕ :=
  min (if regs.tail ≥ c.cachePnt then regs.tail - c.cachePnt else regs.len - c.cachePnt)
    (c.size - c.usedCache.length - c.unusedCache.length)

/-- `fetchDescriptors` -/
def fetchDescriptors (c : DescCache T) (regs : Regs) : Except Fault (DescCache T) :=
  if c.curFetching ≠ 0 then .ok c
  else if c.toFetch regs = 0 then .ok c
  else do
    require .fetchScheduled (c.fetch ≠ .delayed)
    return { c with curFetching := c.toFetch regs, fetch := .delayed }

/-- `fetchDescriptors1` -/
def fetchDescriptors1 (c : DescCache T) (running : Bool) : Except Fault (DescCache T) :=
  if running then do
    require .nothingToFetch (c.curFetching ≠ 0)
    return { c with fetch := .moving }
  else .ok c

/-- `fetchComplete` -/
def fetchComplete (c : DescCache T) (regs : Regs) : Except Fault (DescCache T) := do
  require .pastTheEnd (c.cachePnt + c.curFetching ≤ regs.len)
  let cachePnt := c.cachePnt + c.curFetching
  return { c with
    unusedCache := c.unusedCache ++ c.fetchBuf.take c.curFetching
    cachePnt := if cachePnt = regs.len then 0 else cachePnt
    curFetching := 0
    fetch := .idle }

/-- The head after `wbComplete`. -/
def headAfter (c : DescCache T) (regs : Regs) : ℕ :=
  if regs.head + c.wbOut ≥ regs.len then regs.head + c.wbOut - regs.len else regs.head + c.wbOut

/-- The first half of `wbComplete`: the descriptors leave the cache. -/
def wbDone (c : DescCache T) : DescCache T :=
  { c with usedCache := c.usedCache.drop c.wbOut, wbOut := 0, wb := .idle }

/-- The next writeback, if more was asked for. -/
def wbMore (c : DescCache T) (regs : Regs) : Except Fault (DescCache T) :=
  if c.moreToWb then writeback { c with moreToWb := false } regs c.wbAlignment else .ok c

/-- `wbComplete`; `fetchNow` says whether `fetchAfterWb` fetches. -/
def wbComplete (c : DescCache T) (regs : Regs) (fetchNow : Bool) :
    Except Fault (DescCache T × Regs) := do
  require .noUsed (c.wbOut ≤ c.usedCache.length)
  let regs' := { regs with head := c.headAfter regs }
  let c' ← c.wbDone.wbMore regs'
  if fetchNow then do
    let c'' ← c'.fetchDescriptors regs'
    return (c'', regs')
  else return (c', regs')

end DescCache

/-! ## The card and the driver -/

/-- The cache, the registers and the ring in memory, with what happened so far: the
descriptors that the driver handed over; those that were fetched, with the number of their
slot; those that were used, before and after; those that were written, with the slot they
were written to; and how many have come back to the driver. -/
structure World (T : Type) where
  cache : DescCache T
  regs : Regs
  ring : List T
  given : List T
  fetched : List (T × ℕ)
  consumed : List (T × T)
  written : List (T × ℕ)
  completed : ℕ
  deriving Repr

variable {T : Type}

/-- A card with a cache of `size` descriptors, and a ring in memory. -/
def start (size : ℕ) (ring : List T) : World T where
  cache := .create size
  regs := ⟨0, 0, ring.length⟩
  ring := ring
  given := []
  fetched := []
  consumed := []
  written := []
  completed := 0

/-- What the driver, the card and its events do. -/
inductive Action (T : Type) where
  /-- the driver fills slots and moves the tail behind them -/
  | handOver (descs : List T)
  | fetchDescriptors
  | fetchDescriptors1 (running : Bool)
  /-- the DMA of a fetch arrives in `fetchBuf` -/
  | fetchDma
  | fetchComplete
  /-- the oldest unused descriptor is used, and becomes `desc` -/
  | use (desc : T)
  | writeback (aMask : ℕ)
  | writeback1 (running : Bool)
  /-- the DMA of a writeback reaches memory -/
  | wbDma
  | wbComplete (fetchNow : Bool)
  deriving DecidableEq, Repr

namespace World

/-- The driver fills slots and moves the tail. -/
def handOver (w : World T) (descs : List T) : World T :=
  { w with
    regs := { w.regs with tail := (w.regs.tail + descs.length) % w.regs.len }
    ring := pushAll w.ring w.regs.tail descs
    given := w.given ++ descs }

/-- The block of a fetch. -/
def fetchBlock (w : World T) : List T :=
  (w.ring.drop w.cache.cachePnt).take w.cache.curFetching

/-- The descriptors of a fetch arrive. -/
def fetchDma (w : World T) : World T :=
  { w with cache := { w.cache with fetchBuf := w.fetchBlock, fetch := .moved } }

/-- The descriptors of a fetch join the cache. -/
def fetchComplete (w : World T) : Except Fault (World T) := do
  let c ← w.cache.fetchComplete w.regs
  let block := w.cache.fetchBuf.take w.cache.curFetching
  return { w with cache := c, fetched := w.fetched ++ block.zipIdx w.cache.cachePnt }

/-- The oldest unused descriptor is used. -/
def use (w : World T) (desc : T) : World T :=
  let c := { w.cache with
    unusedCache := w.cache.unusedCache.tail
    usedCache := w.cache.usedCache ++ [desc] }
  { w with
    cache := c
    consumed := w.consumed ++ (w.cache.unusedCache.head?.map (·, desc)).toList }

/-- The descriptors of a writeback reach memory. -/
def wbDma (w : World T) : World T :=
  { w with
    cache := { w.cache with wb := .moved }
    ring := writeBlock w.ring w.regs.head w.cache.wbBuf
    written := w.written ++ w.cache.wbBuf.zipIdx w.regs.head }

/-- The descriptors of a writeback leave the cache. -/
def wbComplete (w : World T) (fetchNow : Bool) : Except Fault (World T) := do
  let (c, regs) ← w.cache.wbComplete w.regs fetchNow
  return { w with cache := c, regs := regs, completed := w.completed + w.cache.wbOut }

/-- A function of the cache. -/
def update (w : World T) (c : Except Fault (DescCache T)) : Except Fault (World T) := do
  let c ← c
  return { w with cache := c }

end World

/-- One step. -/
def step (w : World T) : Action T → Except Fault (World T)
  | .handOver descs => .ok (w.handOver descs)
  | .fetchDescriptors => w.update (w.cache.fetchDescriptors w.regs)
  | .fetchDescriptors1 running => w.update (w.cache.fetchDescriptors1 running)
  | .fetchDma => .ok w.fetchDma
  | .fetchComplete => w.fetchComplete
  | .use desc => .ok (w.use desc)
  | .writeback aMask => w.update (w.cache.writeback w.regs aMask)
  | .writeback1 running => w.update (w.cache.writeback1 running)
  | .wbDma => .ok w.wbDma
  | .wbComplete fetchNow => w.wbComplete fetchNow

/-- The tail does not pass the head, the card uses descriptors it has, and events happen when
they are due. -/
def Allowed (w : World T) : Action T → Prop
  | .handOver descs => w.given.length + descs.length ≤ w.completed + w.regs.len
  | .fetchDescriptors => True
  | .fetchDescriptors1 _ => w.cache.fetch = .delayed
  | .fetchDma => w.cache.fetch = .moving
  | .fetchComplete => w.cache.fetch = .moved
  | .use _ => w.cache.unusedCache ≠ []
  | .writeback _ => True
  | .writeback1 _ => w.cache.wb = .delayed
  | .wbDma => w.cache.wb = .moving
  | .wbComplete _ => w.cache.wb = .moved

instance (w : World T) : (a : Action T) → Decidable (Allowed w a)
  | .handOver descs => inferInstanceAs
      (Decidable (w.given.length + descs.length ≤ w.completed + w.regs.len))
  | .fetchDescriptors => inferInstanceAs (Decidable True)
  | .fetchDescriptors1 _ => inferInstanceAs (Decidable (w.cache.fetch = .delayed))
  | .fetchDma => inferInstanceAs (Decidable (w.cache.fetch = .moving))
  | .fetchComplete => inferInstanceAs (Decidable (w.cache.fetch = .moved))
  | .use _ => decidable_of_iff (w.cache.unusedCache.isEmpty = false) (by
      rw [Bool.eq_false_iff, ne_eq, List.isEmpty_iff]
      rfl)
  | .writeback _ => inferInstanceAs (Decidable True)
  | .writeback1 _ => inferInstanceAs (Decidable (w.cache.wb = .delayed))
  | .wbDma => inferInstanceAs (Decidable (w.cache.wb = .moving))
  | .wbComplete _ => inferInstanceAs (Decidable (w.cache.wb = .moved))

end Gem5.IGbE
