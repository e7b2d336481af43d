/-
# Superblocks of the compressed tags

Embedding of `mem/cache/tags/super_blk.cc` with the parts of `sector_blk.cc`, `compressed_tags.cc`
and `mem/cache/base.cc` that act on one superblock: the co-allocation test of `findVictim`, the
insertion of a block, its invalidation, and `updateCompressionData`.  The compression factor and the
counter of valid blocks are bytes.

An action of the other superblocks of the set is seen here by its effect: a block that
`updateCompressionData` moves to another superblock is invalidated, and one that it moves in is
inserted like a new one.
-/
import Gem5.Bitfield
import Gem5.Runs

namespace Gem5.Mem

open Runs

/-- `CHAR_BIT` -/
def CHAR_BIT : ℕ := 8

/-- The assertions, and the failed test of a co-allocation. -/
inductive SuperBlkFail where
  | noBlock
  | overwritingValidSector
  | stillValid
  | notValid
  | noneValid
  | notCoAllocatable
  deriving DecidableEq, Repr

/-- `CompressionBlk` -/
structure CompressionBlk where
  valid : Bool := false
  size : ℕ := 0
  compressed : Bool := false
  deriving DecidableEq, Repr

/-- `SuperBlk`, with the tag and the counter of its sector. -/
structure SuperBlk where
  blkSize : ℕ
  blks : List CompressionBlk
  compressionFactor : ℕ := 1
  validCounter : ℕ := 0
  tag : ℕ := 2 ^ 64 - 1
  secure : Bool := false
  deriving DecidableEq, Repr

namespace SuperBlk

/-- A superblock of `tagsInit`. -/
def init (blkSize numBlocksPerSector : ℕ) : SuperBlk :=
  { blkSize := blkSize, blks := List.replicate numBlocksPerSector {} }

/-- The bits of an uncompressed block. -/
def blkSizeBits (s : SuperBlk) : ℕ := CHAR_BIT * s.blkSize

/-- `matchTag(tag, is_secure)` -/
def matchTag (s : SuperBlk) (tag : ℕ) (isSecure : Bool) : Bool :=
  decide (0 < s.validCounter) && decide (s.tag = tag) && decide (s.secure = isSecure)

/-- `isCompressed(ignored_blk)` -/
def isCompressed (s : SuperBlk) (ignored : Option ℕ) : Bool :=
  match s.blks.zipIdx.find? fun b => b.1.valid && decide (some b.2 ≠ ignored) with
  | some b => b.1.compressed
  | none => true

/-- `canCoAllocate(compressed_size)` -/
def canCoAllocate (s : SuperBlk) (compressedSize : ℕ) : Bool :=
  decide (s.validCounter < s.compressionFactor) &&
    decide (compressedSize ≤ s.blkSizeBits / s.compressionFactor)

/-- `calculateCompressionFactor(size)`, which returns a byte. -/
def calculateCompressionFactor (s : SuperBlk) (size : ℕ) : ℕ :=
  let compressionFactor :=
    if size > s.blkSizeBits then 1
    else if size = 0 then s.blkSizeBits
    else (Base.alignToPowerOfTwo (BitVec.ofNat 64 (s.blkSizeBits / size))).toNat
  min compressionFactor s.blks.length % 2 ^ 8

/-- `setCompressionFactor(compression_factor)` -/
def setCompressionFactor (s : SuperBlk) (compressionFactor : ℕ) : SuperBlk :=
  if s.validCounter ≤ 1 then { s with compressionFactor := compressionFactor } else s

/-- Block `offset` replaced. -/
def setBlk (s : SuperBlk) (offset : ℕ) (blk : CompressionBlk) : SuperBlk :=
  { s with blks := s.blks.set offset blk }

/-- `CompressionBlk::setSizeBits(size)` -/
def setSizeBits (s : SuperBlk) (offset size : ℕ) : Except SuperBlkFail SuperBlk := do
  let blk ← orFail .noBlock s.blks[offset]?
  let factor := s.calculateCompressionFactor size
  let t := (s.setBlk offset { blk with size := size }).setCompressionFactor factor
  require .noneValid (decide (1 ≤ t.validCounter))
  let compressed :=
    if t.validCounter = 1 then decide (factor ≠ 1) else t.isCompressed (some offset)
  return t.setBlk offset { blk with size := size, compressed := compressed }

/-- An invalid sector gets the tag of the block that comes in. -/
def insertTag (s : SuperBlk) (tag : ℕ) (isSecure : Bool) : SuperBlk :=
  if s.validCounter = 0 ∧ tag ≠ 2 ^ 64 - 1 then
    { s with tag := tag, secure := isSecure || s.secure }
  else s

@[simp] theorem insertTag_blkSize (s : SuperBlk) (tag : ℕ) (isSecure : Bool) :
    (s.insertTag tag isSecure).blkSize = s.blkSize := by
  unfold insertTag
  split <;> rfl

@[simp] theorem insertTag_blks (s : SuperBlk) (tag : ℕ) (isSecure : Bool) :
    (s.insertTag tag isSecure).blks = s.blks := by
  unfold insertTag
  split <;> rfl

@[simp] theorem insertTag_validCounter (s : SuperBlk) (tag : ℕ) (isSecure : Bool) :
    (s.insertTag tag isSecure).validCounter = s.validCounter := by
  unfold insertTag
  split <;> rfl

@[simp] theorem insertTag_compressionFactor (s : SuperBlk) (tag : ℕ) (isSecure : Bool) :
    (s.insertTag tag isSecure).compressionFactor = s.compressionFactor := by
  unfold insertTag
  split <;> rfl

/-- `SectorSubBlk::insert(tag, is_secure)` -/
def insert (s : SuperBlk) (tag : ℕ) (isSecure : Bool) (offset : ℕ) :
    Except SuperBlkFail SuperBlk := do
  let blk ← orFail .noBlock s.blks[offset]?
  require .stillValid (!blk.valid)
  require .overwritingValidSector (decide (s.validCounter = 0) || s.matchTag tag isSecure)
  let t := (s.insertTag tag isSecure).setBlk offset { blk with valid := true }
  return { t with validCounter := (t.validCounter + 1) % 2 ^ 8 }

/-- `invalidateSubBlk` with `SuperBlk::invalidate` -/
def invalidateSubBlk (s : SuperBlk) : SuperBlk :=
  let validCounter := (s.validCounter + (2 ^ 8 - 1)) % 2 ^ 8
  if validCounter = 0 then
    { s with
      validCounter := validCounter, tag := 2 ^ 64 - 1, secure := false, compressionFactor := 1 }
  else { s with validCounter := validCounter }

/-- `CompressionBlk::invalidate` of a valid block. -/
def invalidate (s : SuperBlk) (offset : ℕ) : Except SuperBlkFail SuperBlk := do
  let blk ← orFail .noBlock s.blks[offset]?
  require .notValid blk.valid
  return (s.setBlk offset { blk with valid := false, compressed := false }).invalidateSubBlk

/-- The valid blocks other than `kept`, which are evicted together. -/
def evictBlks (s : SuperBlk) (kept : Option ℕ) : List ℕ :=
  (List.range s.blks.length).filter fun i =>
    s.blks[i]?.any (·.valid) && decide (some i ≠ kept)

/-- The evictions of `handleEvictions`. -/
def evict (s : SuperBlk) (kept : Option ℕ) : Except SuperBlkFail SuperBlk :=
  (s.evictBlks kept).foldlM invalidate s

/-- The test of `findVictim` for a co-allocation. -/
def coAllocatable (s : SuperBlk) (tag : ℕ) (isSecure : Bool) (offset compressedSize : ℕ) : Bool :=
  s.matchTag tag isSecure && s.blks[offset]?.all (!·.valid) && s.isCompressed none &&
    s.canCoAllocate compressedSize

/-- What `updateCompressionData` makes of a size, with the settings of the cache. -/
inductive Overwrite where
  | expansion
  | contraction
  | unchanged
  deriving DecidableEq, Repr

/-- `checkExpansionContraction(size)`; a contraction counts if contractions are moved. -/
def overwriteType (s : SuperBlk) (size : ℕ) (moveContractions : Bool) : Overwrite :=
  if s.calculateCompressionFactor size < s.compressionFactor then .expansion
  else if s.compressionFactor < s.calculateCompressionFactor size ∧ moveContractions = true then
    .contraction
  else .unchanged

/-- Whether the updated block goes to another superblock: `findVictim` is asked for a place and
finds one elsewhere. -/
def movesAway (s : SuperBlk) (size : ℕ) (replaceExpansions moveContractions victimItself : Bool) :
    Bool :=
  match s.overwriteType size moveContractions with
  | .expansion => replaceExpansions && !victimItself
  | .contraction => !victimItself
  | .unchanged => false

/-- `updateCompressionData(blk, data, writebacks)` for data of the given size. -/
def updateCompressionData (s : SuperBlk) (offset size : ℕ)
    (replaceExpansions moveContractions victimItself : Bool) : Except SuperBlkFail SuperBlk := do
  let blk ← orFail .noBlock s.blks[offset]?
  require .notValid blk.valid
  if s.movesAway size replaceExpansions moveContractions victimItself then s.invalidate offset
  else if s.overwriteType size moveContractions = .unchanged then s.setSizeBits offset size
  else do
    let t ← s.evict (some offset)
    t.setSizeBits offset size

/-- What can happen to a superblock. -/
inductive Op where
  | coAllocate (tag : ℕ) (isSecure : Bool) (offset size : ℕ)
  | replace (tag : ℕ) (isSecure : Bool) (offset size : ℕ)
  | invalidate (offset : ℕ)
  | update (offset size : ℕ) (replaceExpansions moveContractions victimItself : Bool)
  deriving DecidableEq, Repr

/-- One action. -/
def step (s : SuperBlk) : Op → Except SuperBlkFail SuperBlk
  | .coAllocate tag isSecure offset size => do
      require .notCoAllocatable (s.coAllocatable tag isSecure offset size)
      let t ← s.insert tag isSecure offset
      t.setSizeBits offset size
  | .replace tag isSecure offset size => do
      let t ← s.evict none
      let u ← t.insert tag isSecure offset
      u.setSizeBits offset size
  | .invalidate offset => s.invalidate offset
  | .update offset size replaceExpansions moveContractions victimItself =>
      s.updateCompressionData offset size replaceExpansions moveContractions victimItself

end SuperBlk

end Gem5.Mem
