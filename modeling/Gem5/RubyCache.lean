/-
# The cache memory of Ruby

`CacheMemory` of `mem/ruby/structures`.  Which way of its set a line is in is recorded in the set
and, by address, in `m_tag_index`.  The protocol allocates and deallocates lines, and it changes the
permissions of the entries in the cache.  The choice of a victim is a parameter.  The size is kept
in an `int`, so the model is exact for caches of less than 2 GiB.
-/
import Gem5.Runs

open Runs

namespace Gem5.Ruby

/-- `AccessPermission` -/
inductive AccessPermission where
  | Read_Only
  | Read_Write
  | Maybe_Stale
  | Backing_Store
  | Backing_Store_Busy
  | Invalid
  | NotPresent
  | Busy
  deriving DecidableEq, Repr

/-- `AbstractCacheEntry`, with the position of a `ReplaceableEntry`. -/
structure AbstractCacheEntry where
  m_Address : BitVec 64
  m_Permission : AccessPermission
  _set : ℕ
  _way : ℕ
  deriving DecidableEq, Repr

/-- The assertions, a panic, a division by zero, and the access to an entry that is not there. -/
inductive CacheFail where
  | divisionByZero
  | numSets
  | numSetBits
  | notLineAddress
  | tagPresent
  | notAvailable
  | noSlot
  | notPresent
  | available
  | nullEntry
  deriving DecidableEq, Repr

/-- The parameters of a `CacheMemory`, and the bits of a block in the Ruby system. -/
structure CacheParams where
  size : ℕ
  assoc : ℕ
  block_size : ℕ
  start_index_bit : ℕ
  blockSizeBits : ℕ
  deriving DecidableEq, Repr

/-- `CacheMemory` -/
structure CacheMemory where
  m_cache_num_sets : ℕ
  m_cache_num_set_bits : ℕ
  m_cache_assoc : ℕ
  m_start_index_bit : ℕ
  blockSizeBits : ℕ
  m_cache : ℕ → ℕ → Option AbstractCacheEntry
  m_tag_index : BitVec 64 → Option ℕ

namespace CacheMemory

/-- The constructor and `init()`. -/
def init (p : CacheParams) : Except CacheFail CacheMemory := do
  let m_block_size := if p.block_size = 0 then 2 ^ p.blockSizeBits else p.block_size
  require .divisionByZero (p.assoc ≠ 0)
  let m_cache_num_sets := (p.size / p.assoc) / m_block_size
  require .numSets (m_cache_num_sets > 1)
  let m_cache_num_set_bits := Nat.log2 m_cache_num_sets
  require .numSetBits (m_cache_num_set_bits > 0)
  return {
    m_cache_num_sets := m_cache_num_sets
    m_cache_num_set_bits := m_cache_num_set_bits
    m_cache_assoc := p.assoc
    m_start_index_bit := p.start_index_bit
    blockSizeBits := p.blockSizeBits
    m_cache := fun _ _ => none
    m_tag_index := fun _ => none }

/-! ## Addresses -/

/-- `makeLineAddress(addr)` -/
def makeLineAddress (c : CacheMemory) (addr : BitVec 64) : BitVec 64 :=
  addr &&& (BitVec.allOnes 64 <<< c.blockSizeBits)

def IsLineAddress (c : CacheMemory) (addr : BitVec 64) : Prop := addr = c.makeLineAddress addr

instance (c : CacheMemory) (addr : BitVec 64) : Decidable (c.IsLineAddress addr) :=
  inferInstanceAs (Decidable (_ = _))

/-- The bits of an address that select a set. -/
def setOf (c : CacheMemory) (address : BitVec 64) : ℕ :=
  (address >>> c.m_start_index_bit).toNat % 2 ^ c.m_cache_num_set_bits

/-- `addressToCacheSet(address)` -/
def addressToCacheSet (c : CacheMemory) (address : BitVec 64) : Except CacheFail ℕ := do
  require .notLineAddress (c.IsLineAddress address)
  return c.setOf address

/-! ## Looking up -/

/-- `findTagInSet(cacheSet, tag)`, nothing for -1. -/
def findTagInSet (c : CacheMemory) (cacheSet : ℕ) (tag : BitVec 64) :
    Except CacheFail (Option ℕ) := do
  require .notLineAddress (c.IsLineAddress tag)
  match c.m_tag_index tag with
  | none => return none
  | some way =>
      let entry ← orFail .nullEntry (c.m_cache cacheSet way)
      return if entry.m_Permission ≠ .NotPresent then some way else none

/-- `lookup(address)` -/
def lookup (c : CacheMemory) (address : BitVec 64) :
    Except CacheFail (Option AbstractCacheEntry) := do
  let cacheSet ← c.addressToCacheSet address
  match ← c.findTagInSet cacheSet address with
  | none => return none
  | some loc => return c.m_cache cacheSet loc

/-- `isTagPresent(address)` -/
def isTagPresent (c : CacheMemory) (address : BitVec 64) : Except CacheFail Bool := do
  let entry ← c.lookup address
  return entry.isSome

/-- `cacheAvail(address)` -/
def cacheAvail (c : CacheMemory) (address : BitVec 64) : Except CacheFail Bool := do
  let cacheSet ← c.addressToCacheSet address
  return (List.range c.m_cache_assoc).any fun i =>
    match c.m_cache cacheSet i with
    | some entry => entry.m_Address = address || entry.m_Permission = .NotPresent
    | none => true

/-! ## Changes -/

/-- The vector of vectors with another entry. -/
def setEntry (c : CacheMemory) (cacheSet way : ℕ) (entry : Option AbstractCacheEntry) :
    CacheMemory :=
  { c with
    m_cache := Function.update c.m_cache cacheSet
      (Function.update (c.m_cache cacheSet) way entry) }

/-- The index with another way for an address. -/
def setIndex (c : CacheMemory) (address : BitVec 64) (way : Option ℕ) : CacheMemory :=
  { c with m_tag_index := Function.update c.m_tag_index address way }

/-- The first open slot of a set. -/
def openSlot (c : CacheMemory) (cacheSet : ℕ) : Option ℕ :=
  (List.range c.m_cache_assoc).find? fun i =>
    match c.m_cache cacheSet i with
    | some entry => entry.m_Permission = .NotPresent
    | none => true

/-- `allocate(address, entry)`, with a new entry. -/
def allocate (c : CacheMemory) (address : BitVec 64) : Except CacheFail CacheMemory := do
  require .notLineAddress (c.IsLineAddress address)
  let present ← c.isTagPresent address
  require .tagPresent (!present)
  let avail ← c.cacheAvail address
  require .notAvailable avail
  let cacheSet ← c.addressToCacheSet address
  let i ← orFail .noSlot (c.openSlot cacheSet)
  let c := c.setEntry cacheSet i (some ⟨address, .Invalid, cacheSet, i⟩)
  return c.setIndex address (some i)

/-- `deallocate(address)` -/
def deallocate (c : CacheMemory) (address : BitVec 64) : Except CacheFail CacheMemory := do
  let entry ← c.lookup address
  let entry ← orFail .notPresent entry
  let c := c.setEntry entry._set entry._way none
  return c.setIndex address none

/-- `cacheProbe(address)`, with the replacement policy's choice of a victim. -/
def cacheProbe (c : CacheMemory) (getVictim : List AbstractCacheEntry → AbstractCacheEntry)
    (address : BitVec 64) : Except CacheFail (BitVec 64) := do
  let avail ← c.cacheAvail address
  require .available (!avail)
  let cacheSet ← c.addressToCacheSet address
  let candidates ← (List.range c.m_cache_assoc).mapM fun i =>
    orFail .nullEntry (c.m_cache cacheSet i)
  let entry ← orFail .nullEntry (c.m_cache cacheSet (getVictim candidates)._way)
  return entry.m_Address

/-- What the protocol does. -/
inductive Action where
  | allocate (address : BitVec 64)
  | deallocate (address : BitVec 64)
  | lookup (address : BitVec 64)
  /-- `changePermission` of an entry in the cache -/
  | changePermission (set way : ℕ) (new_perm : AccessPermission)
  deriving DecidableEq, Repr

def step (c : CacheMemory) : Action → Except CacheFail CacheMemory
  | .allocate address => c.allocate address
  | .deallocate address => c.deallocate address
  | .lookup address => do
      let _ ← c.lookup address
      return c
  | .changePermission set way new_perm => do
      let entry ← orFail .nullEntry (c.m_cache set way)
      return c.setEntry set way (some { entry with m_Permission := new_perm })

end CacheMemory

end Gem5.Ruby
