/-
# Sector tags

Embedding of `SectorTags` (`mem/cache/tags/sector_tags.cc`) with the blocks and sectors that it
works on (`sector_blk.cc`, `cache_blk.cc`, `tagged_entry.hh`) and the set associative indexing
policy (`indexing_policies/set_associative.cc`).  The valid counter of a sector is a byte, and the
indexing policy shifts the number of a set as a 32-bit number.

Which sector a replacement policy picks is left open.
-/
import Gem5.FALRU
import Gem5.Runs

open Runs

namespace Gem5.Mem.Sectors

/-! ## Blocks and sectors -/

/-- `MaxAddr` -/
def MaxAddr : ℕ := 2 ^ 64 - 1

/-- The assertions and the panic, and blocks that do not exist. -/
inductive SectorFail where
  | noSector
  | noBlock
  | blockInvalid
  | blockValid
  | tagMismatch
  | overwritingValidSector
  | victimValid
  | negativeTagsInUse
  | tooManyTagsInUse
  deriving DecidableEq, Repr

/-- `SectorSubBlk` -/
structure SectorSubBlk where
  valid : Bool := false
  tag : ℕ := MaxAddr
  secure : Bool := false
  deriving DecidableEq, Repr

/-- `SectorBlk` -/
structure SectorBlk where
  validCounter : ℕ := 0
  tag : ℕ := MaxAddr
  secure : Bool := false
  blks : List SectorSubBlk
  deriving DecidableEq, Repr

namespace SectorBlk

/-- `isValid()` -/
def isValid (sector : SectorBlk) : Bool := decide (sector.validCounter > 0)

/-- `matchTag(tag, is_secure)` -/
def matchTag (sector : SectorBlk) (tag : ℕ) (isSecure : Bool) : Bool :=
  sector.isValid && decide (sector.tag = tag) && decide (sector.secure = isSecure)

/-- `validateSubBlk()` -/
def validateSubBlk (sector : SectorBlk) : SectorBlk :=
  { sector with validCounter := (sector.validCounter + 1) % 2 ^ 8 }

/-- `invalidateSubBlk()`, with `TaggedEntry::invalidate` of the sector. -/
def invalidateSubBlk (sector : SectorBlk) : SectorBlk :=
  let validCounter := (sector.validCounter + (2 ^ 8 - 1)) % 2 ^ 8
  if validCounter = 0 then
    { sector with validCounter := validCounter, tag := MaxAddr, secure := false }
  else { sector with validCounter := validCounter }

/-- A sector that is not valid gets the tag that is inserted. -/
def insertTag (sector : SectorBlk) (tag : ℕ) (isSecure : Bool) : SectorBlk :=
  if !sector.isValid && decide (tag ≠ MaxAddr) then
    { sector with tag := tag, secure := isSecure || sector.secure }
  else sector

/-- `SectorSubBlk::insert(tag, is_secure)` for the block at `offset`, after the assertion of
`CacheBlk::insert`. -/
def insert (sector : SectorBlk) (offset tag : ℕ) (isSecure : Bool) :
    Except SectorFail SectorBlk := do
  let blk ← orFail .noBlock sector.blks[offset]?
  require .blockValid (!blk.valid)
  require .overwritingValidSector (!(sector.isValid && !sector.matchTag tag isSecure))
  let inserted := sector.insertTag tag isSecure
  let blk : SectorSubBlk := { valid := true, tag := tag, secure := isSecure || blk.secure }
  return { inserted.validateSubBlk with blks := sector.blks.set offset blk }

/-- `SectorSubBlk::invalidate()` for the block at `offset`, after the assertion of
`BaseTags::invalidate`. -/
def invalidate (sector : SectorBlk) (offset : ℕ) : Except SectorFail SectorBlk := do
  let blk ← orFail .noBlock sector.blks[offset]?
  require .blockInvalid blk.valid
  return { sector.invalidateSubBlk with blks := sector.blks.set offset {} }

/-- `matchTag(tag, is_secure)` of a block, which reads the tag of its sector. -/
def matchSubBlk (sector : SectorBlk) (blk : SectorSubBlk) (tag : ℕ) (isSecure : Bool) :
    Except SectorFail Bool :=
  if blk.valid then do
    require .tagMismatch (decide (blk.tag = sector.tag))
    return decide (sector.tag = tag) && decide (blk.secure = isSecure)
  else .ok false

/-- The offsets of the valid blocks, in their order. -/
def validOffsets (sector : SectorBlk) : List ℕ :=
  (sector.blks.zipIdx.filter fun b => b.1.valid).map (·.2)

/-- How many blocks are valid. -/
def numValid (sector : SectorBlk) : ℕ := sector.blks.countP (·.valid)

end SectorBlk

/-! ## The tags -/

/-- The parameters of the tags and of their indexing policy. -/
structure Params where
  blkSize : ℕ
  numBlocksPerSector : ℕ
  numSets : ℕ
  assoc : ℕ
  deriving DecidableEq, Repr

namespace Params

variable (p : Params)

/-- The checks of the constructors; the size of an entry is an `int`, and the number of sets a
32-bit number. -/
def Accepted : Prop :=
  4 ≤ p.blkSize ∧ FALRU.isPowerOf2 p.blkSize = true ∧
    FALRU.isPowerOf2 p.numBlocksPerSector = true ∧ FALRU.isPowerOf2 p.numSets = true ∧
    p.blkSize * p.numBlocksPerSector < 2 ^ 31 ∧ p.numSets < 2 ^ 32 ∧ 0 < p.assoc

def numSectors : ℕ := p.numSets * p.assoc
def sectorShift : ℕ := Nat.log2 p.blkSize
def sectorMask : ℕ := p.numBlocksPerSector - 1
def setShift : ℕ := Nat.log2 (p.blkSize * p.numBlocksPerSector)
def setMask : ℕ := p.numSets - 1
def tagShift : ℕ := p.setShift + Nat.log2 p.numSets

/-- `extractTag(addr)` -/
def extractTag (addr : ℕ) : ℕ := addr >>> p.tagShift

/-- `extractSet(addr)` -/
def extractSet (addr : ℕ) : ℕ := ((addr >>> p.setShift) &&& p.setMask) % 2 ^ 32

/-- `extractSectorOffset(addr)` -/
def extractSectorOffset (addr : ℕ) : ℕ := (addr >>> p.sectorShift) &&& p.sectorMask

/-- The sector in a way of a set, by its position in `secBlks`. -/
def sectorIndex (set way : ℕ) : ℕ := set * p.assoc + way

/-- `getPossibleEntries(addr)` -/
def getPossibleEntries (addr : ℕ) : List ℕ :=
  (List.range p.assoc).map (p.sectorIndex (p.extractSet addr))

/-- `regenerateAddr(tag, entry)` -/
def regenerateAddr (tag set : ℕ) : ℕ :=
  ((tag <<< p.tagShift) % 2 ^ 64) ||| ((set <<< p.setShift) % 2 ^ 32)

end Params

/-- `SectorTags` -/
structure SectorTags where
  secBlks : List SectorBlk
  tagsInUse : ℤ := 0
  deriving DecidableEq

section Operations

variable (p : Params)

/-- `tagsInit()` -/
def tagsInit : SectorTags :=
  { secBlks := List.replicate p.numSectors
      { blks := List.replicate p.numBlocksPerSector {} } }

/-- `regenerateBlkAddr(blk)` for the block at `offset` of sector `i`. -/
def regenerateBlkAddr (sector : SectorBlk) (i offset : ℕ) : ℕ :=
  p.regenerateAddr sector.tag (i / p.assoc) ||| (offset <<< p.sectorShift) % 2 ^ 64

/-- The loop of `findBlock`. -/
def findIn (t : SectorTags) (offset tag : ℕ) (isSecure : Bool) :
    List ℕ → Except SectorFail (Option (ℕ × ℕ))
  | [] => .ok none
  | i :: entries => do
    let sector ← orFail .noSector t.secBlks[i]?
    let blk ← orFail .noBlock sector.blks[offset]?
    let found ← sector.matchSubBlk blk tag isSecure
    if found then return some (i, offset) else findIn t offset tag isSecure entries

/-- `findBlock(addr, is_secure)`: the sector and the offset of the block. -/
def findBlock (t : SectorTags) (addr : ℕ) (isSecure : Bool) :
    Except SectorFail (Option (ℕ × ℕ)) :=
  findIn t (p.extractSectorOffset addr) (p.extractTag addr) isSecure (p.getPossibleEntries addr)

/-- Whether sector `i` matches. -/
def sectorMatches (t : SectorTags) (tag : ℕ) (isSecure : Bool) (i : ℕ) : Bool :=
  t.secBlks[i]?.any (·.matchTag tag isSecure)

/-- The sector that `findVictim` takes; `way` is the choice of the replacement policy. -/
def victimSector (t : SectorTags) (addr : ℕ) (isSecure : Bool) (way : ℕ) : ℕ :=
  ((p.getPossibleEntries addr).find? (sectorMatches t (p.extractTag addr) isSecure)).getD
    (p.sectorIndex (p.extractSet addr) way)

/-- `findVictim(addr, is_secure, size, evict_blks)`: the sector of the victim, and the offsets of
the blocks of this sector that have to be evicted. -/
def findVictim (t : SectorTags) (addr : ℕ) (isSecure : Bool) (way : ℕ) :
    Except SectorFail (ℕ × List ℕ) := do
  let i := victimSector p t addr isSecure way
  let sector ← orFail .noSector t.secBlks[i]?
  let victim ← orFail .noBlock sector.blks[p.extractSectorOffset addr]?
  if sector.matchTag (p.extractTag addr) isSecure then do
    require .victimValid (!victim.valid)
    return (i, [])
  else return (i, sector.validOffsets)

/-- `invalidate(blk)` for the block at `offset` of sector `i`. -/
def invalidate (t : SectorTags) (i offset : ℕ) : Except SectorFail SectorTags := do
  let sector ← orFail .noSector t.secBlks[i]?
  let sector ← sector.invalidate offset
  if sector.isValid then return { t with secBlks := t.secBlks.set i sector }
  else do
    require .negativeTagsInUse (decide (0 ≤ t.tagsInUse - 1))
    return { t with secBlks := t.secBlks.set i sector, tagsInUse := t.tagsInUse - 1 }

/-- `insertBlock(pkt, blk)` for the block at the address's offset of sector `i`. -/
def insertBlock (t : SectorTags) (addr : ℕ) (isSecure : Bool) (i : ℕ) :
    Except SectorFail SectorTags := do
  let sector ← orFail .noSector t.secBlks[i]?
  let tagsInUse := if sector.isValid then t.tagsInUse else t.tagsInUse + 1
  require .tooManyTagsInUse (sector.isValid || decide (tagsInUse ≤ p.numSectors))
  let sector ← sector.insert (p.extractSectorOffset addr) (p.extractTag addr) isSecure
  return { secBlks := t.secBlks.set i sector, tagsInUse := tagsInUse }

/-- What the cache does with its tags. -/
inductive Op where
  | miss (addr : ℕ) (isSecure : Bool) (way : ℕ)
  | hit (addr : ℕ) (isSecure : Bool)
  | invalidate (i offset : ℕ)
  deriving DecidableEq, Repr

/-- One operation: a miss evicts the blocks of the victim's sector and inserts a block, and a hit
changes replacement data only. -/
def step (t : SectorTags) : Op → Except SectorFail SectorTags
  | .miss addr isSecure way => do
    let (i, evictBlks) ← findVictim p t addr isSecure way
    let t ← evictBlks.foldlM (fun t offset => invalidate t i offset) t
    insertBlock p t addr isSecure i
  | .hit addr isSecure => do
    let _ ← findBlock p t addr isSecure
    return t
  | .invalidate i offset => invalidate t i offset

/-- What the cache promises: addresses are 64-bit numbers, a miss follows a lookup that has found no
block, the replacement policy picks an entry of the set, and only valid blocks are invalidated. -/
def Legal (t : SectorTags) : Op → Prop
  | .miss addr isSecure way =>
      addr < 2 ^ 64 ∧ findBlock p t addr isSecure = .ok none ∧ way < p.assoc
  | .hit addr _ => addr < 2 ^ 64
  | .invalidate i offset =>
      ∃ sector blk, t.secBlks[i]? = some sector ∧ sector.blks[offset]? = some blk ∧
        blk.valid = true

/-- **The counter and the shifted set have room**: a miss that goes into a sector with its tag finds
fewer than 255 valid blocks there, and the number of its set, shifted to its place in an address,
fits into 32 bits. -/
def HasRoom (t : SectorTags) : Op → Prop
  | .miss addr isSecure way =>
      (∀ sector, t.secBlks[victimSector p t addr isSecure way]? = some sector →
        sector.matchTag (p.extractTag addr) isSecure = true → sector.numValid < 255) ∧
        p.extractSet addr <<< p.setShift < 2 ^ 32
  | .hit _ _ => True
  | .invalidate _ _ => True

/-! ## Consistency -/

/-- An address is cached in the block at `offset` of sector `i`. -/
def CachedIn (t : SectorTags) (i offset addr : ℕ) (isSecure : Bool) : Prop :=
  i ∈ p.getPossibleEntries addr ∧ offset = p.extractSectorOffset addr ∧
    ∃ sector blk, t.secBlks[i]? = some sector ∧ sector.blks[offset]? = some blk ∧
      sector.matchSubBlk blk (p.extractTag addr) isSecure = .ok true

/-- **The views of the state agree.** -/
structure Consistent (t : SectorTags) : Prop where
  counter : ∀ sector ∈ t.secBlks, sector.validCounter = sector.numValid
  tags : ∀ sector ∈ t.secBlks, ∀ blk ∈ sector.blks, blk.valid = true →
    blk.tag = sector.tag ∧ blk.secure = sector.secure
  once : ∀ addr isSecure i offset j offset', CachedIn p t i offset addr isSecure →
    CachedIn p t j offset' addr isSecure → i = j ∧ offset = offset'
  found : ∀ i offset sector blk, t.secBlks[i]? = some sector → sector.blks[offset]? = some blk →
    blk.valid = true →
      findBlock p t (regenerateBlkAddr p sector i offset) blk.secure = .ok (some (i, offset))
  inUse : t.tagsInUse = t.secBlks.countP fun sector => sector.blks.any (·.valid)

end Operations

end Gem5.Mem.Sectors
