/-
# Which queue sends next

`BaseCache::getNextQueueEntry` (`mem/cache/base.cc`) over the miss queue and the write buffer, with
`Queue::findPending` and `Queue::findMatch` (`mem/cache/queue.hh`).  The order numbers are those of
the one counter of the cache, so a smaller number means that the request came first.

The function looks at one entry of the other queue only, the first one on its ready list for the
same block.  A write for the block of a ready miss goes first whatever its number, so that the
dirty data is not lost, and a prefetch is not compared with uncacheable writes.
-/
import Gem5.ReadyList

namespace Gem5.Mem

open Runs

/-! ## Looking for an entry -/

/-- Two entries for the same block and security state. -/
def QueueEntry.sameBlock (a b : QueueEntry) : Bool :=
  decide (a.blkAddr = b.blkAddr) && decide (a.isSecure = b.isSecure)

/-- `conflictAddr(entry)`, which calls `matchBlockAddr` of the other entry. -/
def QueueEntry.conflictAddr (a entry : QueueEntry) : Except MissQueueFail Bool := do
  require .noTargets a.hasTargets
  require .noTargets entry.hasTargets
  return entry.sameBlock a

/-- `matchBlockAddr(addr, is_secure)` -/
def QueueEntry.matchBlockAddr (a : QueueEntry) (addr : ℕ) (isSecure : Bool) :
    Except MissQueueFail Bool := do
  require .noTargets a.hasTargets
  return decide (a.blkAddr = addr) && decide (a.isSecure = isSecure)

/-- The first index of a list for which a test that may fail says yes. -/
def findFirst (test : ℕ → Except MissQueueFail Bool) : List ℕ → Except MissQueueFail (Option ℕ)
  | [] => .ok none
  | i :: l => do
      let found ← test i
      if found then .ok (some i) else findFirst test l

namespace Queue

variable {E : Type} [IsQueueEntry E]

/-- `findPending(entry)` -/
def findPending (q : Queue E) (entry : QueueEntry) : Except MissQueueFail (Option ℕ) :=
  findFirst (fun i => (q.entry i).conflictAddr entry) q.readyList

/-- `findMatch(blk_addr, is_secure)`, which ignores uncacheable entries. -/
def findMatch (q : Queue E) (blkAddr : ℕ) (isSecure : Bool) : Except MissQueueFail (Option ℕ) :=
  findFirst (fun i => if (q.entry i).isUncacheable then .ok false
    else (q.entry i).matchBlockAddr blkAddr isSecure) q.allocatedList

/-- The first entry on the ready list for the block of `entry`. -/
def firstPending (q : Queue E) (entry : QueueEntry) : Option ℕ :=
  q.readyList.find? fun i => entry.sameBlock (q.entry i)

end Queue

/-- A write queue entry adds to its base class only its targets. -/
instance : IsQueueEntry QueueEntry where
  base := id

/-! ## The cache -/

/-- The two queues of a cache and its counter. -/
structure CacheQueues where
  mshrQueue : MSHRQueue
  writeBuffer : Queue QueueEntry
  order : ℕ
  blkSize : ℕ
  demandReserve : ℕ

/-- What the function is told about prefetching: whether there is a prefetcher, whether the cache
is blocked, the packet of the prefetcher, whether the tags hold its block and whether it is
allocated on a fill. -/
structure PrefetchAnswers where
  prefetcher : Bool
  isBlocked : Bool
  packet : Option MissPacket
  inTags : Bool
  allocOnFill : Bool

/-- An entry of either queue. -/
inductive NextEntry where
  | mshr (id : ℕ)
  | write (id : ℕ)
  deriving DecidableEq, Repr

namespace CacheQueues

/-- `MSHRQueue::canPrefetch()` -/
def canPrefetch (c : CacheQueues) : Bool :=
  decide (c.mshrQueue.allocated <
    (c.mshrQueue.numEntries : ℤ) - (c.mshrQueue.numReserve + 1 + c.demandReserve))

/-- `allocateMissBuffer(pkt, time, false)` -/
def allocateMissBuffer (c : CacheQueues) (pkt : MissPacket) (time : ℕ) (allocOnFill : Bool) :
    Except MissQueueFail (ℕ × CacheQueues) := do
  let id ← orFail .noFreeEntry c.mshrQueue.freeList.head?
  let q ← MSHRQueue.allocate c.mshrQueue (pkt.addr / c.blkSize * c.blkSize) c.blkSize pkt time
    c.order allocOnFill
  return (id, { c with mshrQueue := q, order := c.order + 1 })

/-- The branch for a ready write: an earlier miss for its block goes first. -/
def writeFirst (c : CacheQueues) (w : ℕ) : Except MissQueueFail NextEntry := do
  let conflict ← c.mshrQueue.findPending (c.writeBuffer.entry w)
  return match conflict with
    | some m =>
        if (c.mshrQueue.entry m).order < (c.writeBuffer.entry w).order then .mshr m else .write w
    | none => .write w

/-- The branch for a ready miss: a write for its block goes first. -/
def missFirst (c : CacheQueues) (m : ℕ) : Except MissQueueFail NextEntry := do
  let conflict ← c.writeBuffer.findPending (c.mshrQueue.entry m)
  return match conflict with
    | some w => .write w
    | none => .mshr m

/-- A prefetch for a packet, unless the block is in the cache or in one of the queues. -/
def prefetch (c : CacheQueues) (curTick : ℕ) (pf : PrefetchAnswers) (pkt : MissPacket) :
    Except MissQueueFail (Option NextEntry × CacheQueues) := do
  let pfAddr := pkt.addr / c.blkSize * c.blkSize
  if pf.inTags then return (none, c)
  else do
    let miss ← c.mshrQueue.findMatch pfAddr pkt.req.secure
    if miss.isSome then return (none, c)
    else do
      let write ← c.writeBuffer.findMatch pfAddr pkt.req.secure
      if write.isSome then return (none, c)
      else do
        let r ← c.allocateMissBuffer pkt curTick pf.allocOnFill
        return (some (.mshr r.1), r.2)

/-- The end of the function, when neither queue has a ready entry. -/
def tryPrefetch (c : CacheQueues) (curTick : ℕ) (pf : PrefetchAnswers) :
    Except MissQueueFail (Option NextEntry × CacheQueues) :=
  if pf.prefetcher && c.canPrefetch && !pf.isBlocked then
    match pf.packet with
    | some pkt => c.prefetch curTick pf pkt
    | none => .ok (none, c)
  else .ok (none, c)

/-- A ready write goes first when the write buffer is full, else a ready miss. -/
def favoured (c : CacheQueues) (w m : ℕ) : Except MissQueueFail NextEntry :=
  if c.writeBuffer.isFull then c.writeFirst w else c.missFirst m

/-- `getNextQueueEntry()` -/
def getNextQueueEntry (c : CacheQueues) (curTick : ℕ) (pf : PrefetchAnswers) :
    Except MissQueueFail (Option NextEntry × CacheQueues) :=
  match c.writeBuffer.getNext curTick, c.mshrQueue.getNext curTick with
  | some w, none => do
      let e ← c.writeFirst w
      return (some e, c)
  | some w, some m => do
      let e ← c.favoured w m
      return (some e, c)
  | none, some m => do
      let e ← c.missFirst m
      return (some e, c)
  | none, none => c.tryPrefetch curTick pf

end CacheQueues

/-! ## What the searches find -/

theorem QueueEntry.sameBlock_comm (a b : QueueEntry) : a.sameBlock b = b.sameBlock a := by
  simp only [QueueEntry.sameBlock, eq_comm]

/-- A search that returns has found the first index with the property that the tests decide. -/
theorem findFirst_eq {test : ℕ → Except MissQueueFail Bool} {p : ℕ → Bool} {l : List ℕ}
    {r : Option ℕ} (htest : ∀ i b, test i = .ok b → b = p i) (h : findFirst test l = .ok r) :
    r = l.find? p := by
  induction l with
  | nil => exact (Except.ok.inj h).symm
  | cons i l ih =>
    obtain ⟨b, hb, h⟩ := bind_eq_ok.mp h
    have hp := htest i b hb
    split at h
    next hfound =>
      rw [List.find?_cons_of_pos (by rw [← hp, hfound])]
      exact (Except.ok.inj h).symm
    next hnot =>
      rw [List.find?_cons_of_neg (by rwa [← hp])]
      exact ih h

namespace Queue

variable {E : Type} [IsQueueEntry E]

variable {q : Queue E} {entry : QueueEntry}

theorem findPending_eq {r : Option ℕ} (h : q.findPending entry = .ok r) :
    r = q.firstPending entry := by
  apply findFirst_eq _ h
  intro i b hb
  obtain ⟨_, _, hb⟩ := bind_eq_ok.mp hb
  obtain ⟨_, _, hb⟩ := bind_eq_ok.mp hb
  exact (Except.ok.inj hb).symm

/-- No entry found: the entries for the block are uncacheable. -/
theorem findMatch_none {blkAddr : ℕ} {isSecure : Bool} (h : q.findMatch blkAddr isSecure = .ok none)
    :
    ∀ i ∈ q.allocatedList,
      (q.entry i).blkAddr = blkAddr → (q.entry i).isSecure = isSecure →
      (q.entry i).isUncacheable = true := by
  have hnone : none = q.allocatedList.find? fun i => !(q.entry i).isUncacheable &&
      (decide ((q.entry i).blkAddr = blkAddr) && decide ((q.entry i).isSecure = isSecure)) := by
    apply findFirst_eq _ h
    intro i b hb
    split at hb
    next hu => simpa [hu] using (Except.ok.inj hb).symm
    next hu =>
      obtain ⟨_, _, hb⟩ := bind_eq_ok.mp hb
      have hu : (q.entry i).isUncacheable = false := by simpa using hu
      rw [hu, Bool.not_false, Bool.true_and]
      exact (Except.ok.inj hb).symm
  intro i hi haddr hsecure
  have := List.find?_eq_none.mp hnone.symm i hi
  simpa [haddr, hsecure] using this

theorem getNext_head {curTick id : ℕ} (h : q.getNext curTick = some id) :
    q.readyList.head? = some id := by
  unfold getNext at h
  split at h
  next => simp at h
  next front hfront =>
    split at h
    next => simp at h
    next => rw [hfront, Option.some.inj h]

/-- The front of the ready list is the first entry for its block. -/
theorem firstPending_front {id : ℕ} (hid : q.readyList.head? = some id)
    (hsame : entry.sameBlock (q.entry id) = true) :
    q.firstPending entry = some id := by
  obtain ⟨rest, hrest⟩ := List.head?_eq_some_iff.mp hid
  unfold firstPending
  rw [hrest]
  exact List.find?_cons_of_pos (p := fun i => entry.sameBlock (q.entry i)) hsame

theorem firstPending_sameBlock {id : ℕ} (h : q.firstPending entry = some id) :
    entry.sameBlock (q.entry id) = true :=
  List.find?_some (p := fun i => entry.sameBlock (q.entry i)) h

end Queue

/-! ## The order of the requests for one block -/

namespace CacheQueues

/-- The first entry of the other queue for the block of `e` has no smaller number. -/
def InOrder (c : CacheQueues) : NextEntry → Prop
  | .mshr m => ∀ w, c.writeBuffer.firstPending (c.mshrQueue.entry m) = some w →
      ¬ (c.writeBuffer.entry w).order < (c.mshrQueue.entry m).order
  | .write w => ∀ m, c.mshrQueue.firstPending (c.writeBuffer.entry w) = some m →
      ¬ (c.mshrQueue.entry m).order < (c.writeBuffer.entry w).order

/-- The first write for the block of the ready miss, at a time when the write buffer is not both
ready and full. -/
def WriteBeforeMiss (c : CacheQueues) (curTick : ℕ) : NextEntry → Prop
  | .mshr _ => False
  | .write w => ∃ m, c.mshrQueue.getNext curTick = some m ∧
      c.writeBuffer.firstPending (c.mshrQueue.entry m) = some w ∧
      (c.writeBuffer.getNext curTick ≠ none → c.writeBuffer.isFull = false)

/-- A new miss for a block of which both queues hold uncacheable entries only, at a time when
neither has a ready entry. -/
def Prefetched (c c' : CacheQueues) (curTick : ℕ) : NextEntry → Prop
  | .mshr m => c.mshrQueue.getNext curTick = none ∧ c.writeBuffer.getNext curTick = none ∧
      (∀ i ∈ c.mshrQueue.allocatedList,
        (c'.mshrQueue.entry m).sameBlock (c.mshrQueue.entry i) = true →
        (c.mshrQueue.entry i).isUncacheable = true) ∧
      ∀ i ∈ c.writeBuffer.allocatedList,
        (c'.mshrQueue.entry m).sameBlock (c.writeBuffer.entry i) = true →
        (c.writeBuffer.entry i).isUncacheable = true
  | .write _ => False

variable {curTick : ℕ} {c c' : CacheQueues} {e : NextEntry}

theorem writeFirst_inOrder {w : ℕ} (hw : c.writeBuffer.getNext curTick = some w)
    (h : c.writeFirst w = .ok e) : c.InOrder e := by
  obtain ⟨conflict, hc, h⟩ := bind_eq_ok.mp h
  have hfirst := Queue.findPending_eq hc
  have he := Except.ok.inj h
  cases conflict with
  | none =>
    subst he
    intro m hm
    rw [← hfirst] at hm
    cases hm
  | some m =>
    dsimp only at he
    split at he
    next hlt =>
      -- the write that the miss precedes is the first one for the block
      subst he
      intro w' hw'
      have hsame := Queue.firstPending_sameBlock hfirst.symm
      rw [QueueEntry.sameBlock_comm] at hsame
      rw [Queue.firstPending_front (Queue.getNext_head hw) hsame] at hw'
      obtain rfl := Option.some.inj hw'
      omega
    next hge =>
      subst he
      intro m' hm'
      rw [← hfirst] at hm'
      obtain rfl := Option.some.inj hm'
      exact hge

theorem missFirst_order {m : ℕ} (hm : c.mshrQueue.getNext curTick = some m)
    (hfull : c.writeBuffer.getNext curTick ≠ none → c.writeBuffer.isFull = false)
    (h : c.missFirst m = .ok e) : c.InOrder e ∨ c.WriteBeforeMiss curTick e := by
  obtain ⟨conflict, hc, h⟩ := bind_eq_ok.mp h
  have hfirst := Queue.findPending_eq hc
  have he := Except.ok.inj h
  cases conflict with
  | none =>
    subst he
    left
    intro w hw
    rw [← hfirst] at hw
    cases hw
  | some w =>
    subst he
    right
    exact ⟨m, hm, hfirst.symm, hfull⟩

/-- The register of a new miss is for the block of its packet. -/
theorem allocateMissBuffer_block {pkt : MissPacket} {time id : ℕ} {allocOnFill : Bool}
    (h : c.allocateMissBuffer pkt time allocOnFill = .ok (id, c')) :
    (c'.mshrQueue.entry id).blkAddr = pkt.addr / c.blkSize * c.blkSize ∧
      (c'.mshrQueue.entry id).isSecure = pkt.req.secure := by
  obtain ⟨id', hid, h⟩ := bind_eq_ok.mp h
  obtain ⟨q, hq, h⟩ := bind_eq_ok.mp h
  cases Except.ok.inj h
  obtain ⟨id', hid', hq⟩ := bind_eq_ok.mp hq
  obtain rfl := Option.some.inj ((orFail_eq_ok.mp hid).symm.trans (orFail_eq_ok.mp hid'))
  obtain ⟨_, _, hq⟩ := bind_eq_ok.mp hq
  obtain ⟨mshr, _, hq⟩ := bind_eq_ok.mp hq
  obtain ⟨l, _, hq⟩ := bind_eq_ok.mp hq
  rw [← Except.ok.inj hq]
  simp [Queue.entry, Queue.setEntry, IsQueueEntry.base]

/-- The block of a prefetch has no cacheable entry in either queue. -/
theorem prefetch_fresh {pf : PrefetchAnswers} {pkt : MissPacket}
    (hm : c.mshrQueue.getNext curTick = none) (hw : c.writeBuffer.getNext curTick = none)
    (h : c.prefetch curTick pf pkt = .ok (some e, c')) : c.Prefetched c' curTick e := by
  unfold prefetch at h
  split at h
  next => cases Except.ok.inj h
  next =>
    obtain ⟨miss, hmiss, h⟩ := bind_eq_ok.mp h
    split at h
    next => cases Except.ok.inj h
    next hnomiss =>
      obtain ⟨write, hwrite, h⟩ := bind_eq_ok.mp h
      split at h
      next => cases Except.ok.inj h
      next hnowrite =>
        obtain ⟨⟨id, c''⟩, hr, h⟩ := bind_eq_ok.mp h
        cases Except.ok.inj h
        rw [Option.not_isSome_iff_eq_none.mp hnomiss] at hmiss
        rw [Option.not_isSome_iff_eq_none.mp hnowrite] at hwrite
        obtain ⟨haddr, hsecure⟩ := allocateMissBuffer_block hr
        have hblock : ∀ b : QueueEntry, (c''.mshrQueue.entry id).sameBlock b = true →
            b.blkAddr = pkt.addr / c.blkSize * c.blkSize ∧ b.isSecure = pkt.req.secure := by
          intro b hb
          simp only [QueueEntry.sameBlock, Bool.and_eq_true, decide_eq_true_eq] at hb
          exact ⟨hb.1.symm.trans haddr, hb.2.symm.trans hsecure⟩
        refine ⟨hm, hw, fun i hi hsame => ?_, fun i hi hsame => ?_⟩
        · obtain ⟨ha, hs⟩ := hblock _ hsame
          exact Queue.findMatch_none hmiss i hi ha hs
        · obtain ⟨ha, hs⟩ := hblock _ hsame
          exact Queue.findMatch_none hwrite i hi ha hs

theorem tryPrefetch_fresh {pf : PrefetchAnswers} (hm : c.mshrQueue.getNext curTick = none)
    (hw : c.writeBuffer.getNext curTick = none) (h : c.tryPrefetch curTick pf = .ok (some e, c')) :
    c.Prefetched c' curTick e := by
  unfold tryPrefetch at h
  split at h
  next =>
    split at h
    next pkt _ => exact prefetch_fresh hm hw h
    next => cases Except.ok.inj h
  next => cases Except.ok.inj h

/-- **The next entry.**  The entry that `getNextQueueEntry` returns does not overtake the first
entry of the other queue for its block, except for a write that goes before the ready miss of its
block, and for a prefetch, whose block has no cacheable entry in either queue. -/
theorem getNextQueueEntry_order {c c' : CacheQueues} {curTick : ℕ} (pf : PrefetchAnswers)
    {e : NextEntry} (h : c.getNextQueueEntry curTick pf = .ok (some e, c')) :
    (c' = c ∧ (c.InOrder e ∨ c.WriteBeforeMiss curTick e)) ∨ c.Prefetched c' curTick e := by
  unfold getNextQueueEntry at h
  split at h
  next w hw hm =>
    obtain ⟨e', he', h⟩ := bind_eq_ok.mp h
    cases Except.ok.inj h
    exact .inl ⟨rfl, .inl (writeFirst_inOrder hw he')⟩
  next w m hw hm =>
    obtain ⟨e', he', h⟩ := bind_eq_ok.mp h
    cases Except.ok.inj h
    unfold favoured at he'
    split at he'
    next => exact .inl ⟨rfl, .inl (writeFirst_inOrder hw he')⟩
    next hfull => exact .inl ⟨rfl, missFirst_order hm (fun _ => by simpa using hfull) he'⟩
  next m hw hm =>
    obtain ⟨e', he', h⟩ := bind_eq_ok.mp h
    cases Except.ok.inj h
    exact .inl ⟨rfl, missFirst_order hm (fun hne => absurd hw hne) he'⟩
  next hw hm => exact .inr (tryPrefetch_fresh hm hw h)

/-- A queue of four entries, of which the first holds a ready request of number `order` for
block 64. -/
def oneReady {E : Type} (order : ℕ) (entry : ℕ → E) : Queue E :=
  { numEntries := 4, numReserve := 0, entries := fun _ => entry order, allocatedList := [0],
    readyList := [0], freeList := [1, 2, 3], allocated := 1 }

/-- A miss and a write for block 64, with their numbers. -/
def missAndWrite (miss write : ℕ) : CacheQueues where
  mshrQueue := oneReady miss fun order =>
    { mshr := { order := order, targets := { targets := [⟨{ cmd := .ReadReq }, 0, order, .FromCPU,
        false, true⟩] } }, blkAddr := 64 }
  writeBuffer := oneReady write fun order => { order := order, blkAddr := 64, hasTargets := true }
  order := 2
  blkSize := 64
  demandReserve := 1

/-- No prefetcher. -/
def noPrefetch : PrefetchAnswers := ⟨false, false, none, false, false⟩

theorem getNextQueueEntry_order_write :
    (missAndWrite 1 0).InOrder (.write 0) ∨ (missAndWrite 1 0).WriteBeforeMiss 5 (.write 0) :=
  (getNextQueueEntry_order noPrefetch
    (rfl : (missAndWrite 1 0).getNextQueueEntry 5 noPrefetch =
      .ok (some (.write 0), missAndWrite 1 0))).elim (·.2) False.elim

/-- **A later write overtakes a miss.**  The miss of number 0 and the write of number 1 are for one
block and both ready; the write is returned. -/
theorem write_overtakes_miss :
    (missAndWrite 0 1).getNextQueueEntry 5 noPrefetch =
        .ok (some (.write 0), missAndWrite 0 1) ∧
      0 ∈ (missAndWrite 0 1).mshrQueue.readyList ∧
      ((missAndWrite 0 1).writeBuffer.entry 0).sameBlock
        ((missAndWrite 0 1).mshrQueue.entry 0) = true ∧
      ((missAndWrite 0 1).mshrQueue.entry 0).order <
        ((missAndWrite 0 1).writeBuffer.entry 0).order :=
  ⟨rfl, by decide, by decide, by decide⟩

end CacheQueues

end Gem5.Mem
