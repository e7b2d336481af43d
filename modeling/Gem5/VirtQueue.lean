/-
# Virtqueues

Embedding of `VirtQueue` (`dev/virtio/base.cc`, `dev/virtio/base.hh`): the device side
of the avail ring, on which the guest publishes descriptor chains, and of the used
ring, on which the device returns them.  Guest memory is kept as the two rings that
`setAddress` lays out one behind the other; the byte order conversions of a read and
of a write cancel.  The indices run freely in 16 bits.  The chains themselves, which
`updateChain` follows, are in `VirtDescriptor`.
-/
import Gem5.RingIndex
import Gem5.Runs

namespace Gem5.Virtio

open Runs RingIndex

/-! ## Rings -/

/-- `VirtRing::Header` -/
structure Header where
  flags : ℕ
  index : ℕ
  deriving DecidableEq, Repr

/-- `vring_used_elem` -/
structure UsedElem where
  id : ℕ
  len : ℕ
  deriving DecidableEq, Repr

/-- A ring in guest memory. -/
structure GuestRing (T : Type) where
  header : Header
  ring : List T
  deriving DecidableEq, Repr

/-- The two rings in guest memory. -/
structure GuestMemory where
  avail : GuestRing ℕ
  used : GuestRing UsedElem
  deriving DecidableEq, Repr

/-- `VirtRing`, the copy of a ring in the device. -/
structure VirtRing (T : Type) where
  header : Header
  ring : List T
  base : ℕ
  deriving DecidableEq, Repr

/-- The assertions of the rings, and the accesses outside a vector. -/
inductive Fault where
  /-- `assert(_base != 0)` -/
  | noAddress
  /-- an element outside a ring -/
  | outsideRing
  /-- `descriptors[index]` outside the queue -/
  | noDescriptor
  deriving DecidableEq, Repr

variable {T : Type}

/-- `readHeader` -/
def VirtRing.readHeader (r : VirtRing T) (g : GuestRing T) : Except Fault (VirtRing T) := do
  require .noAddress (r.base ≠ 0)
  return { r with header := g.header }

/-- `read` -/
def VirtRing.read (r : VirtRing T) (g : GuestRing T) : Except Fault (VirtRing T) := do
  let r' ← r.readHeader g
  return { r' with ring := g.ring }

/-- `write`: all elements of the device's copy, then the header. -/
def VirtRing.write (r : VirtRing T) : Except Fault (GuestRing T) := do
  require .noAddress (r.base ≠ 0)
  return { header := r.header, ring := r.ring }

/-! ## The queue -/

/-- `VirtQueue` -/
structure VirtQueue where
  size : ℕ
  address : ℕ
  avail : VirtRing ℕ
  used : VirtRing UsedElem
  lastAvail : ℕ
  deriving DecidableEq, Repr

/-- The constructor. -/
def VirtQueue.create (size : ℕ) : VirtQueue where
  size := size
  address := 0
  avail := ⟨⟨0, 0⟩, List.replicate size 0, 0⟩
  used := ⟨⟨0, 0⟩, List.replicate size ⟨0, 0⟩, 0⟩
  lastAvail := 0

/-- `ALIGN_SIZE` -/
def ALIGN_SIZE : ℕ := 4096

/-- `setAddress`: 16 bytes for each descriptor, then the avail ring with its header of
four bytes and an event index, then the used ring on the next page. -/
def VirtQueue.setAddress (q : VirtQueue) (address : ℕ) : VirtQueue :=
  let addr_avail := address + q.size * 16
  let addr_avail_end := addr_avail + 4 + q.size * 2
  let addr_used := (addr_avail_end + 2 + (ALIGN_SIZE - 1)) / ALIGN_SIZE * ALIGN_SIZE
  { q with
    address := address
    avail := { q.avail with base := addr_avail }
    used := { q.used with base := addr_used } }

/-- `uint16_t` increment -/
def next16 (i : ℕ) : ℕ := (i + 1) % 65536

/-- `consumeDescriptor`, with the index of the descriptor. -/
def VirtQueue.consumeDescriptor (q : VirtQueue) (mem : GuestMemory) :
    Except Fault (VirtQueue × Option ℕ) := do
  let avail ← q.avail.read mem.avail
  if q.lastAvail = avail.header.index then return ({ q with avail := avail }, none)
  else do
    let index ← orFail .outsideRing avail.ring[q.lastAvail % q.used.ring.length]?
    require .noDescriptor (index < q.size)
    return ({ q with avail := avail, lastAvail := next16 q.lastAvail }, some index)

/-- `produceDescriptor` for the descriptor with the given index. -/
def VirtQueue.produceDescriptor (q : VirtQueue) (mem : GuestMemory) (index len : ℕ) :
    Except Fault (VirtQueue × GuestMemory) := do
  let used ← q.used.readHeader mem.used
  let used' : VirtRing UsedElem :=
    { used with
      ring := used.ring.set (used.header.index % used.ring.length) ⟨index, len⟩
      header := { used.header with index := next16 used.header.index } }
  let written ← used'.write
  return ({ q with used := used' }, { mem with used := written })

/-! ## Checkpoints -/

/-- What `serialize` saves: `_address` and `_last_avail`. -/
structure Checkpoint where
  address : ℕ
  lastAvail : ℕ
  deriving DecidableEq, Repr

/-- `serialize` -/
def VirtQueue.serialize (q : VirtQueue) : Checkpoint := ⟨q.address, q.lastAvail⟩

/-- `unserialize` -/
def VirtQueue.unserialize (q : VirtQueue) (cp : Checkpoint) : VirtQueue :=
  VirtQueue.setAddress { q with lastAvail := cp.lastAvail } cp.address

/-! ## The queue and the guest -/

/-- The queue and guest memory, with what happened to them: the chains that were
published, consumed, and consumed but not yet produced; the elements that were produced,
and how many of them the guest has read. -/
structure World where
  queue : VirtQueue
  mem : GuestMemory
  published : List ℕ
  consumed : List ℕ
  pending : List ℕ
  produced : List UsedElem
  guestRead : ℕ
  deriving DecidableEq, Repr

/-- A queue after the driver set it up; the cells of the rings hold anything. -/
def start (size address availFlags usedFlags : ℕ) (availRing : Fin size → ℕ)
    (usedRing : Fin size → UsedElem) : World where
  queue := (VirtQueue.create size).setAddress address
  mem := ⟨⟨⟨availFlags, 0⟩, List.ofFn availRing⟩, ⟨⟨usedFlags, 0⟩, List.ofFn usedRing⟩⟩
  published := []
  consumed := []
  pending := []
  produced := []
  guestRead := 0

/-- What the guest and the device do. -/
inductive Action where
  | publish (head : ℕ)
  | consume
  | produce (head len : ℕ)
  | readUsed
  deriving DecidableEq, Repr

/-- The guest's side of a publication. -/
def GuestMemory.publish (mem : GuestMemory) (size head : ℕ) : GuestMemory :=
  { mem with avail :=
    ⟨{ mem.avail.header with index := next16 mem.avail.header.index },
      mem.avail.ring.set (mem.avail.header.index % size) head⟩ }

/-- One step of the guest or of the device. -/
def step (w : World) : Action → Except Fault World
  | .publish head => .ok { w with
      mem := w.mem.publish w.queue.size head
      published := w.published ++ [head] }
  | .consume => do
      let (q, d) ← w.queue.consumeDescriptor w.mem
      return { w with
        queue := q
        consumed := w.consumed ++ d.toList
        pending := w.pending ++ d.toList }
  | .produce head len => do
      let (q, mem) ← w.queue.produceDescriptor w.mem head len
      return { w with
        queue := q
        mem := mem
        pending := w.pending.erase head
        produced := w.produced ++ [⟨head, len⟩] }
  | .readUsed => .ok { w with guestRead := w.guestRead + 1 }

/-- The guest publishes heads of the queue, at most `size` that it has not got back; the
device produces chains it consumed; the guest reads when its own index differs from the
index of the used ring. -/
def Allowed (w : World) : Action → Prop
  | .publish head => head < w.queue.size ∧ w.published.length < w.guestRead + w.queue.size
  | .consume => True
  | .produce head _ => head ∈ w.pending
  | .readUsed => w.guestRead % 65536 ≠ w.mem.used.header.index

instance (w : World) : (a : Action) → Decidable (Allowed w a)
  | .publish head => inferInstanceAs
      (Decidable (head < w.queue.size ∧ w.published.length < w.guestRead + w.queue.size))
  | .consume => inferInstanceAs (Decidable True)
  | .produce head _ => inferInstanceAs (Decidable (head ∈ w.pending))
  | .readUsed => inferInstanceAs (Decidable (w.guestRead % 65536 ≠ w.mem.used.header.index))

/-! ## The invariant -/

/-- **How the indices represent the history**, and the avail ring the chains that were not
consumed. -/
structure Indexed (w : World) : Prop where
  size_pos : 0 < w.queue.size
  size_dvd : w.queue.size ∣ 65536
  size_lt : w.queue.size < 65536
  availBase : w.queue.avail.base ≠ 0
  usedBase : w.queue.used.base ≠ 0
  usedLength : w.queue.used.ring.length = w.queue.size
  memAvailLength : w.mem.avail.ring.length = w.queue.size
  memUsedLength : w.mem.used.ring.length = w.queue.size
  lastAvail : w.queue.lastAvail = w.consumed.length % 65536
  availIndex : w.mem.avail.header.index = w.published.length % 65536
  usedIndex : w.mem.used.header.index = w.produced.length % 65536
  heads : ∀ h ∈ w.published, h < w.queue.size
  consumed : w.consumed <+: w.published
  counts : w.produced.length + w.pending.length = w.consumed.length
  read : w.guestRead ≤ w.produced.length
  outstanding : w.published.length ≤ w.guestRead + w.queue.size
  avail : Holds w.mem.avail.ring w.published w.consumed.length

/-- **The whole invariant**: both copies of the used ring hold the elements that were not
read. -/
structure Inv (w : World) : Prop extends Indexed w where
  deviceUsed : Holds w.queue.used.ring w.produced w.guestRead
  guestUsed : Holds w.mem.used.ring w.produced w.guestRead

end Gem5.Virtio
