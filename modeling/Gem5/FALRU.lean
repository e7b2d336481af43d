/-
# The fully associative LRU tags

Embedding of `mem/cache/tags/fa_lru.cc`: the blocks of the cache on one doubly linked list from the
most to the least recently used, the hash table of the tags, and the tracking of the smaller caches
whose sizes are powers of two times the smallest tracked size.  A block is in the `i`-th tracked
cache if bit `i` of its mask is set, and `boundaries[i]` points to the last such block.

Pointers are optional block numbers; following a null pointer is an error.  The sizes are the values
of the fields `unsigned` that the constructor keeps.
-/
import Gem5.Bitfield
import Gem5.DoublyLinked
import Gem5.Runs

namespace Gem5.Mem

open Runs

/-- `CachesMask` -/
abbrev CachesMask := BitVec 32

/-- A tag and the security state. -/
abbrev TagHashKey := ℕ × Bool

/-- `MaxAddr` -/
def MaxAddr : ℕ := 2 ^ 64 - 1

/-- The pointer errors, the fatal errors of the constructor and the assertions. -/
inductive FALRUFail where
  | nullDereference
  | blkSizeNotPowerOf2
  | sizeNotPowerOf2
  | tooManyTrackedCaches
  | noBlocks
  | boundaryOutOfRange
  | endlessList
  | hasNext
  | hasPrev
  | notInHash
  | notValid
  | stillValid
  | wrongTag
  | stillCached
  deriving DecidableEq, Repr

/-- `FALRUBlk` -/
structure FALRUBlk where
  prev : Option ℕ := none
  next : Option ℕ := none
  inCachesMask : CachesMask := 0#32
  valid : Bool := false
  tag : TagHashKey := (MaxAddr, false)
  deriving DecidableEq, Repr

/-- `FALRU`, with its `CacheTracking`. -/
structure FALRU where
  blkSize : ℕ
  minTrackedSize : ℕ
  numBlocks : ℕ
  numTrackedCaches : ℕ
  blks : ℕ → FALRUBlk
  head : Option ℕ
  tail : Option ℕ
  tagHash : TagHashKey → Option ℕ := fun _ => none
  boundaries : ℕ → Option ℕ := fun _ => none
  hits : ℕ → ℕ := fun _ => 0
  misses : ℕ → ℕ := fun _ => 0
  accesses : ℕ := 0

namespace FALRU

/-! ## Fields -/

/-- Block `b` replaced. -/
def setBlk (s : FALRU) (b : ℕ) (blk : FALRUBlk) : FALRU :=
  { s with blks := Function.update s.blks b blk }

def setNext (s : FALRU) (b : ℕ) (next : Option ℕ) : FALRU :=
  s.setBlk b { s.blks b with next := next }

def setPrev (s : FALRU) (b : ℕ) (prev : Option ℕ) : FALRU :=
  s.setBlk b { s.blks b with prev := prev }

def setMask (s : FALRU) (b : ℕ) (mask : CachesMask) : FALRU :=
  s.setBlk b { s.blks b with inCachesMask := mask }

def setBoundary (s : FALRU) (i : ℕ) (b : Option ℕ) : FALRU :=
  { s with boundaries := Function.update s.boundaries i b }

/-- `inAllCachesMask`, which is `mask(numTrackedCaches)`. -/
def inAllCachesMask (s : FALRU) : CachesMask := BitVec.ofNat 32 (2 ^ s.numTrackedCaches - 1)

/-! ## The tracking of the smaller caches -/

/-- One cache of the loop of `moveBlockToHead(blk)`. -/
def toHeadStep (s : FALRU) (blk : ℕ) (updateCachesMask : CachesMask) (i : ℕ) :
    Except FALRUFail FALRU :=
  if (1#32 <<< i) &&& updateCachesMask ≠ 0 then do
    let b ← orFail .nullDereference (s.boundaries i)
    let cleared := s.setMask b ((s.blks b).inCachesMask &&& ~~~(1#32 <<< i))
    return cleared.setBoundary i (cleared.blks b).prev
  else if s.boundaries i = some blk then return s.setBoundary i (s.blks blk).prev
  else return s

/-- `moveBlockToHead(blk)` -/
def moveBlockToHead (s : FALRU) (blk : ℕ) : Except FALRUFail FALRU := do
  let updateCachesMask := s.inAllCachesMask ^^^ (s.blks blk).inCachesMask
  let t ← (List.range s.numTrackedCaches).foldlM (toHeadStep · blk updateCachesMask ·) s
  return t.setMask blk t.inAllCachesMask

/-- One cache of the loop of `moveBlockToTail(blk)`. -/
def toTailStep (s : FALRU) (blk : ℕ) (updateCachesMask : CachesMask) (i : ℕ) :
    Except FALRUFail FALRU :=
  if (1#32 <<< i) &&& updateCachesMask ≠ 0 then do
    let b ← orFail .nullDereference (s.boundaries i)
    let next := (s.blks b).next
    let boundary := if next = some blk then (s.blks blk).next else next
    let c ← orFail .nullDereference boundary
    return (s.setBoundary i (some c)).setMask c ((s.blks c).inCachesMask ||| 1#32 <<< i)
  else return s

/-- `moveBlockToTail(blk)` -/
def moveBlockToTail (s : FALRU) (blk : ℕ) : Except FALRUFail FALRU := do
  let updateCachesMask := (s.blks blk).inCachesMask
  let t ← (List.range s.numTrackedCaches).foldlM (toTailStep · blk updateCachesMask ·) s
  return t.setMask blk 0#32

/-- The loop of `CacheTracking::init`, which follows the list; `rounds` bounds it. -/
def initLoop : ℕ → Option ℕ → ℕ → ℕ → CachesMask → ℕ → FALRU → Except FALRUFail FALRU
  | _, none, _, _, _, _, s => .ok s
  | 0, some _, _, _, _, _, _ => .error .endlessList
  | rounds + 1, some blk, currSize, trackedCacheSize, inCachesMask, j, s =>
      let masked := s.setMask blk inCachesMask
      if currSize + s.blkSize = trackedCacheSize ∧ some blk ≠ s.tail then do
        require .boundaryOutOfRange (decide (j < s.numTrackedCaches))
        initLoop rounds (s.blks blk).next (currSize + s.blkSize) (trackedCacheSize * 2)
          (inCachesMask &&& ~~~(1#32 <<< j)) (j + 1) (masked.setBoundary j (some blk))
      else
        initLoop rounds (s.blks blk).next (currSize + s.blkSize) trackedCacheSize inCachesMask j
          masked

/-- `CacheTracking::init(head, tail)` -/
def trackingInit (s : FALRU) : Except FALRUFail FALRU :=
  initLoop s.numBlocks (if s.numTrackedCaches ≠ 0 then s.head else none) 0 s.minTrackedSize
    s.inAllCachesMask 0 s

/-- `recordAccess(blk)` -/
def recordAccess (s : FALRU) (blk : Option ℕ) : FALRU :=
  let hit : ℕ → Bool := fun i =>
    if i < s.numTrackedCaches then
      blk.any fun b => decide ((1#32 <<< i) &&& (s.blks b).inCachesMask ≠ 0)
    else blk.any fun b => (s.blks b).valid
  { s with
    hits := fun i => if i ≤ s.numTrackedCaches ∧ hit i = true then s.hits i + 1 else s.hits i
    misses := fun i =>
      if i ≤ s.numTrackedCaches ∧ hit i = false then s.misses i + 1 else s.misses i
    accesses := s.accesses + 1 }

/-! ## Construction -/

/-- `isPowerOf2(n)` -/
def isPowerOf2 (n : ℕ) : Bool := decide (n ≠ 0) && decide (n &&& (n - 1) = 0)

theorem exists_two_pow {n : ℕ} (h : isPowerOf2 n = true) : ∃ k, n = 2 ^ k := by
  simp only [isPowerOf2, Bool.and_eq_true, decide_eq_true_eq] at h
  obtain ⟨k, rfl⟩ := Nat.ne_zero_and_sub_one_eq_zero_iff_isPowerOfTwo.mp h
  exact ⟨k, rfl⟩

/-- The blocks after `tagsInit`, which writes the first one, those between, and the last one. -/
def tagsInitBlk (numBlocks i : ℕ) : FALRUBlk :=
  if i = numBlocks - 1 then { prev := some ((numBlocks + 2 ^ 32 - 2) % 2 ^ 32), next := none }
  else if i = 0 then { prev := none, next := some 1 }
  else { prev := some (i - 1), next := some (i + 1) }

/-- `tagsInit`: all blocks on the list in the order of their numbers. -/
def tagsInit (blkSize minTrackedSize numBlocks numTrackedCaches : ℕ) : FALRU :=
  { blkSize := blkSize, minTrackedSize := minTrackedSize, numBlocks := numBlocks,
    numTrackedCaches := numTrackedCaches, blks := tagsInitBlk numBlocks, head := some 0,
    tail := some (numBlocks - 1) }

/-- `numTrackedCaches` of the constructor, from the largest and the smallest size. -/
def trackedCaches (size minTrackedSize : ℕ) : ℕ :=
  if size > minTrackedSize then Nat.log2 size - Nat.log2 minTrackedSize else 0

/-- The constructor and `tagsInit`. -/
def init (blkSize size minTrackedSize : ℕ) : Except FALRUFail FALRU := do
  require .tooManyTrackedCaches (decide (trackedCaches size minTrackedSize ≤ 32))
  require .blkSizeNotPowerOf2 (isPowerOf2 blkSize)
  require .sizeNotPowerOf2 (isPowerOf2 size)
  require .noBlocks (decide (0 < size / blkSize))
  trackingInit
    (tagsInit blkSize minTrackedSize (size / blkSize) (trackedCaches size minTrackedSize))

/-! ## The list -/

/-- `p->next = next` through a pointer. -/
def setNextOf (s : FALRU) (p next : Option ℕ) : Except FALRUFail FALRU := do
  let b ← orFail .nullDereference p
  return s.setNext b next

/-- `p->prev = prev` through a pointer. -/
def setPrevOf (s : FALRU) (p prev : Option ℕ) : Except FALRUFail FALRU := do
  let b ← orFail .nullDereference p
  return s.setPrev b prev

/-- The neighbours of a block that is neither first nor last are linked to each other. -/
def bypass (s : FALRU) (blk : ℕ) : Except FALRUFail FALRU := do
  let t ← s.setNextOf (s.blks blk).prev (s.blks blk).next
  t.setPrevOf (t.blks blk).next (t.blks blk).prev

/-- `moveToHead` takes the block out of the list. -/
def unlinkForHead (s : FALRU) (blk : ℕ) : Except FALRUFail FALRU :=
  if some blk = s.tail then do
    require .hasNext (s.blks blk).next.isNone
    let t : FALRU := { s with tail := (s.blks blk).prev }
    t.setNextOf t.tail none
  else s.bypass blk

/-- `moveToHead` links the block in before the head. -/
def pushHead (s : FALRU) (blk : ℕ) : Except FALRUFail FALRU := do
  let t ← ((s.setNext blk s.head).setPrev blk none).setPrevOf s.head (some blk)
  return { t with head := some blk }

/-- `moveToHead(blk)` -/
def moveToHead (s : FALRU) (blk : ℕ) : Except FALRUFail FALRU :=
  if some blk = s.head then .ok s
  else do
    let t ← s.moveBlockToHead blk
    let u ← t.unlinkForHead blk
    u.pushHead blk

/-- `moveToTail` takes the block out of the list. -/
def unlinkForTail (s : FALRU) (blk : ℕ) : Except FALRUFail FALRU :=
  if some blk = s.head then do
    require .hasPrev (s.blks blk).prev.isNone
    let t : FALRU := { s with head := (s.blks blk).next }
    t.setPrevOf t.head none
  else s.bypass blk

/-- `moveToTail` links the block in behind the tail. -/
def pushTail (s : FALRU) (blk : ℕ) : Except FALRUFail FALRU := do
  let t ← ((s.setPrev blk s.tail).setNext blk none).setNextOf s.tail (some blk)
  return { t with tail := some blk }

/-- `moveToTail(blk)` -/
def moveToTail (s : FALRU) (blk : ℕ) : Except FALRUFail FALRU :=
  if some blk = s.tail then .ok s
  else do
    let t ← s.moveBlockToTail blk
    let u ← t.unlinkForTail blk
    u.pushTail blk

/-! ## The tags -/

/-- `extractTag(addr)`, the block address. -/
def extractTag (s : FALRU) (addr : ℕ) : ℕ := addr / s.blkSize * s.blkSize

/-- `findBlock(addr, is_secure)` -/
def findBlock (s : FALRU) (key : TagHashKey) : Except FALRUFail (Option ℕ) :=
  match s.tagHash key with
  | none => .ok none
  | some b => do
      require .wrongTag (!(s.blks b).valid || decide ((s.blks b).tag = key))
      return some b

/-- The hit of `accessBlock`. -/
def touch (s : FALRU) (blk : Option ℕ) : Except FALRUFail FALRU :=
  match blk with
  | some b => if (s.blks b).valid then s.moveToHead b else .ok s
  | none => .ok s

/-- `accessBlock(pkt, lat)`.  The access is recorded after the block has moved. -/
def accessBlock (s : FALRU) (key : TagHashKey) : Except FALRUFail (Option ℕ × FALRU) := do
  let blk ← s.findBlock key
  let t ← s.touch blk
  return (blk, t.recordAccess blk)

/-- `invalidate(blk)` -/
def invalidate (s : FALRU) (b : ℕ) : Except FALRUFail FALRU := do
  require .notInHash (s.tagHash (s.blks b).tag).isSome
  require .notValid (s.blks b).valid
  let erased : FALRU := { s with tagHash := Function.update s.tagHash (s.blks b).tag none }
  (erased.setBlk b { s.blks b with valid := false, tag := (MaxAddr, false) }).moveToTail b

/-- `insertBlock(pkt, blk)` -/
def insertBlock (s : FALRU) (key : TagHashKey) (b : ℕ) : Except FALRUFail FALRU := do
  require .stillCached (decide ((s.blks b).inCachesMask = 0))
  require .stillValid (!(s.blks b).valid)
  let t ← (s.setBlk b { s.blks b with valid := true, tag := key }).moveToHead b
  return { t with tagHash := Function.update t.tagHash key (some b) }

/-- `handleEvictions` for the victim. -/
def evict (s : FALRU) (victim : ℕ) : Except FALRUFail FALRU :=
  if (s.blks victim).valid then s.invalidate victim else .ok s

/-- What the cache does on a miss: `findVictim`, the eviction of a valid victim and the
insertion. -/
def replace (s : FALRU) (key : TagHashKey) : Except FALRUFail FALRU := do
  let victim ← orFail .nullDereference s.tail
  let t ← s.evict victim
  t.insertBlock key victim

/-- One access, given by its address and security state. -/
def access (s : FALRU) (addr : ℕ) (isSecure : Bool) : Except FALRUFail FALRU := do
  let r ← s.accessBlock (s.extractTag addr, isSecure)
  match r.1 with
  | some _ => return r.2
  | none => r.2.replace (s.extractTag addr, isSecure)

end FALRU

end Gem5.Mem
