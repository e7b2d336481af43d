/-
# The physical memory and its load-locked records

Embedding of `AbstractMemory::access`, `trackLoadLocked`, `checkLockedAddrList` and
`writeOK` (`mem/abstract_mem.cc`, `mem/abstract_mem.hh`).  The reservations of all
contexts share one list of records, each with the masked start address of a load
locked.  The backing store is there (`pmemAddr` is set); what the memory tells the
threads whose records it erases is left out.
-/
import Gem5.MemCmd
import Gem5.Runs

namespace Gem5.Mem.LockedMem

open Runs

/-! ## Packets -/

/-- The functor of an atomic operation: it rewrites the bytes of the access in place. -/
structure AtomicOpFunctor where
  apply : List UInt8 → List UInt8
  length_eq : ∀ bs, (apply bs).length = bs.length

/-- `PacketPtr` with the fields of its request.  The size of the packet is the length
of its data, and its address is the physical address of the request. -/
structure Packet where
  cmd : MemCmd
  addr : ℕ
  data : List UInt8
  /-- `req->getByteEnable()` -/
  byteEnable : List Bool
  /-- `none` without a valid context id -/
  contextId : Option ℕ
  atomicOp : Option AtomicOpFunctor
  isCondSwap : Bool
  isInstFetch : Bool
  /-- `none` while the extra data are not valid -/
  extraData : Option (BitVec 64)
  cacheResponding : Bool

/-- The assertions and panics of an access. -/
inductive Fault where
  /-- `assert(pkt->getAddrRange().isSubset(range))` -/
  | outOfRange
  /-- `assert(req->hasContextId())` -/
  | noContextId
  /-- `assert(!pkt->fromCache())` of a load locked -/
  | fromCache
  /-- an `assert(!pkt->isWrite())` -/
  | isWrite
  /-- an `assert(!pkt->req->isInstFetch())` -/
  | isInstFetch
  /-- `assert(extraDataValid())` -/
  | noExtraData
  /-- `panic("Invalid size for conditional read/write")` -/
  | conditionalSize
  /-- `assert(req->getByteEnable().size() == getSize())` -/
  | byteEnableSize
  /-- `panic("Unexpected packet")` -/
  | unexpectedPacket
  /-- `assert(isRequest())` of `makeResponse` -/
  | notARequest
  deriving DecidableEq, Repr

/-- `isMaskedWrite` -/
def Packet.isMaskedWrite (pkt : Packet) : Bool :=
  pkt.cmd = .WriteReq && pkt.byteEnable.contains false

/-- The bytes `writeData` stores; a disabled byte is `none`. -/
def Packet.writeBytes (pkt : Packet) : List (Option UInt8) :=
  if pkt.isMaskedWrite then
    (pkt.data.zip pkt.byteEnable).map fun (b, enabled) => if enabled then some b else none
  else pkt.data.map some

/-- `makeResponse` -/
def Packet.makeResponse (pkt : Packet) : Except Fault Packet :=
  if pkt.cmd.isRequest then .ok { pkt with cmd := pkt.cmd.responseCommand }
  else .error .notARequest

/-! ## Bytes -/

/-- The backing store. -/
abbrev Bytes := ℕ → UInt8

/-- The `size` bytes from `addr` on. -/
def load (mem : Bytes) (addr size : ℕ) : List UInt8 := (List.range size).map fun i => mem (addr + i)

/-- Write the enabled bytes from `addr` on. -/
def store (mem : Bytes) (addr : ℕ) (bs : List (Option UInt8)) : Bytes := fun x =>
  if addr ≤ x then (bs[x - addr]?.join).getD (mem x) else mem x

/-- The first `n` bytes of a value in the byte order of the host. -/
def hostBytes (n : ℕ) (v : BitVec 64) : List UInt8 :=
  (List.range n).map fun i => UInt8.ofNat ((v.toNat / 256 ^ i) % 256)

/-! ## Reservations -/

/-- `LockedAddr` -/
structure LockedAddr where
  addr : ℕ
  contextId : ℕ
  deriving DecidableEq, Repr

/-- `LockedAddr::mask`: the lowest four bits are cleared. -/
def mask (paddr : ℕ) : ℕ := paddr / 16 * 16

/-- `AbstractMemory` -/
structure AbstractMemory where
  pmem : Bytes
  lockedAddrList : List LockedAddr

/-- `LockedAddr::matchesContext` -/
def matchesContext (l : LockedAddr) : Option ℕ → Except Fault Bool
  | none => .error .noContextId
  | some c => .ok (l.contextId = c)

/-- The search of `trackLoadLocked`: the first record of the context gets the new
address. -/
def modifyRecord (contextId paddr : ℕ) : List LockedAddr → Option (List LockedAddr)
  | [] => none
  | l :: ls =>
      if l.contextId = contextId then some (⟨paddr, l.contextId⟩ :: ls)
      else (modifyRecord contextId paddr ls).map (l :: ·)

/-- `trackLoadLocked` -/
def trackLoadLocked (m : AbstractMemory) (pkt : Packet) : Except Fault AbstractMemory :=
  match pkt.contextId with
  | none => .error .noContextId
  | some contextId =>
      let paddr := mask pkt.addr
      match modifyRecord contextId paddr m.lockedAddrList with
      | some ls => .ok { m with lockedAddrList := ls }
      | none => .ok { m with lockedAddrList := ⟨paddr, contextId⟩ :: m.lockedAddrList }

/-- The first loop of `checkLockedAddrList`; the context is asked for when an address
matches. -/
def findRecord (paddr : ℕ) (contextId : Option ℕ) : List LockedAddr → Except Fault Bool
  | [] => .ok false
  | l :: ls =>
      if l.addr = paddr then do
        let found ← matchesContext l contextId
        if found then return true else findRecord paddr contextId ls
      else findRecord paddr contextId ls

/-- Whether the records let a store through: a store conditional needs its own. -/
def allowStore (m : AbstractMemory) (pkt : Packet) : Except Fault Bool :=
  if pkt.cmd.isLLSC then findRecord (mask pkt.addr) pkt.contextId m.lockedAddrList
  else .ok true

/-- `checkLockedAddrList`, and `writeOK` around it: whether the store is allowed, the
records that remain, and the packet with the result of a store conditional. -/
def writeOK (m : AbstractMemory) (pkt : Packet) : Except Fault (Bool × AbstractMemory × Packet) :=
  if m.lockedAddrList = [] then
    if pkt.cmd.isLLSC then .ok (false, m, { pkt with extraData := some 0 })
    else .ok (true, m, pkt)
  else do
    let allow ← allowStore m pkt
    return (allow,
      if allow then
        { m with lockedAddrList := m.lockedAddrList.filter fun l => l.addr ≠ mask pkt.addr }
      else m,
      if pkt.cmd.isLLSC then { pkt with extraData := some (if allow then 1 else 0) } else pkt)

/-! ## Accesses -/

/-- The comparison of a conditional swap with the bytes in memory; other swaps store
always. -/
def overwriteMem (m : AbstractMemory) (pkt : Packet) : Except Fault Bool :=
  if pkt.isCondSwap then
    if pkt.data.length = 8 then do
      let conditionVal64 ← orFail .noExtraData pkt.extraData
      return hostBytes 8 conditionVal64 = load m.pmem pkt.addr 8
    else if pkt.data.length = 4 then do
      let conditionVal32 ← orFail .noExtraData pkt.extraData
      return hostBytes 4 conditionVal32 = load m.pmem pkt.addr 4
    else .error .conditionalSize
  else .ok true

/-- The branch of `SwapReq`. -/
def swap (m : AbstractMemory) (pkt : Packet) : Except Fault (AbstractMemory × Packet) :=
  let old := load m.pmem pkt.addr pkt.data.length
  match pkt.atomicOp with
  | some op =>
      .ok ({ m with pmem := store m.pmem pkt.addr ((op.apply old).map some) },
        { pkt with data := old })
  | none => do
      let overwrite ← overwriteMem m pkt
      require .isInstFetch !pkt.isInstFetch
      return (if overwrite then { m with pmem := store m.pmem pkt.addr (pkt.data.map some) } else m,
        { pkt with data := old })

/-- A load locked that does not come from a cache is recorded. -/
def trackRead (m : AbstractMemory) (pkt : Packet) : Except Fault AbstractMemory :=
  if pkt.cmd.isLLSC then
    if pkt.cmd.fromCache then .error .fromCache else trackLoadLocked m pkt
  else .ok m

/-- The branch of reads. -/
def read (m : AbstractMemory) (pkt : Packet) : Except Fault (AbstractMemory × Packet) := do
  require .isWrite !pkt.cmd.isWrite
  let m' ← trackRead m pkt
  return (m', { pkt with data := load m.pmem pkt.addr pkt.data.length })

/-- The data of an allowed write reach memory. -/
def writeData (m : AbstractMemory) (pkt : Packet) : Except Fault AbstractMemory := do
  require .byteEnableSize (!pkt.isMaskedWrite || pkt.byteEnable.length = pkt.data.length)
  require .isInstFetch !pkt.isInstFetch
  return { m with pmem := store m.pmem pkt.addr pkt.writeBytes }

/-- The branch of writes, after `writeOK` answered. -/
def writeIf (allow : Bool) (m : AbstractMemory) (pkt : Packet) : Except Fault AbstractMemory :=
  if allow then writeData m pkt else .ok m

/-- The branch of writes. -/
def write (m : AbstractMemory) (pkt : Packet) : Except Fault (AbstractMemory × Packet) := do
  let (allow, m', pkt') ← writeOK m pkt
  let m'' ← writeIf allow m' pkt'
  return (m'', pkt')

/-- The response, when one is needed. -/
def respond (pkt : Packet) : Except Fault Packet :=
  if pkt.cmd.needsResponse then pkt.makeResponse else .ok pkt

/-- The branches of `access`. -/
def serve (m : AbstractMemory) (pkt : Packet) : Except Fault (AbstractMemory × Packet) :=
  if pkt.cmd = .SwapReq then swap m pkt
  else if pkt.cmd.isRead then read m pkt
  else if pkt.cmd.isInvalidate || pkt.cmd.isClean then do
    require .isWrite !pkt.cmd.isWrite
    return (m, pkt)
  else if pkt.cmd.isWrite then write m pkt
  else .error .unexpectedPacket

/-- The packet is not answered by a cache, and not one that the memory drops. -/
def Packet.served (pkt : Packet) : Bool :=
  !pkt.cacheResponding && pkt.cmd ≠ .CleanEvict && pkt.cmd ≠ .WritebackClean

variable (inRange : ℕ → ℕ → Bool)

/-- `access`; `inRange` tells whether the bytes of a packet lie in the memory's range. -/
def access (m : AbstractMemory) (pkt : Packet) : Except Fault (AbstractMemory × Packet) :=
  if pkt.served then do
    require .outOfRange (inRange pkt.addr pkt.data.length)
    let (m', pkt') ← serve m pkt
    let resp ← respond pkt'
    return (m', resp)
  else .ok (m, pkt)

end Gem5.Mem.LockedMem
