/-
# Virtqueue descriptors

Embedding of `VirtDescriptor` (`dev/virtio/base.cc`, `dev/virtio/base.hh`).  Guest memory is a
function from 64-bit addresses to bytes, and a queue keeps the descriptors it last read.  The `next`
fields are the guest's, so a walk along them may stop at any descriptor, leave the queue, come back
or go round for ever: a walk is the loop of the source, with a bound on its rounds.
-/
import Gem5.Loop
import Gem5.Runs

namespace Gem5.Virtio

open Runs Loop

/-! ## Guest memory -/

/-- The bytes of guest memory. -/
abbrev GuestBytes := ℕ → UInt8

/-- The addresses of a block of guest memory. -/
def cells (addr size : ℕ) : List ℕ := (List.range size).map fun k => (addr + k) % 2 ^ 64

/-- `readBlob` -/
def readBlob (mem : GuestBytes) (addr size : ℕ) : List UInt8 := (cells addr size).map mem

/-- Bytes are written one after the other. -/
def store (mem : GuestBytes) (writes : List (ℕ × UInt8)) : GuestBytes :=
  writes.foldl (fun m w => Function.update m w.1 w.2) mem

/-- `writeBlob` -/
def writeBlob (mem : GuestBytes) (addr : ℕ) (src : List UInt8) : GuestBytes :=
  store mem ((cells addr src.length).zip src)

/-- `ByteOrder` -/
inductive ByteOrder where
  | big
  | little
  deriving DecidableEq, Repr

/-- `gtoh`: the number that the bytes of the guest stand for. -/
def gtoh (order : ByteOrder) (bytes : List UInt8) : ℕ :=
  Nat.ofDigits 256 ((match order with
    | .little => bytes
    | .big => bytes.reverse).map UInt8.toNat)

/-! ## Descriptors -/

/-- `vring_desc` -/
structure VringDesc where
  addr : ℕ
  len : ℕ
  flags : ℕ
  nextIndex : ℕ
  deriving DecidableEq, Repr

/-- What stops a walk: the panics and assertions of the source, and an access outside the vector of
descriptors. -/
inductive ChainFault where
  /-- "Loop in descriptor chain!" -/
  | loopInChain
  /-- "Trying to read from outgoing buffer" -/
  | readOutgoing
  /-- "Trying to write to incoming buffer" -/
  | writeIncoming
  /-- `assert(size <= desc.len - offset)` -/
  | outsideBuffer
  /-- "Failed to read %i bytes from chain of %i bytes @ offset %i" -/
  | readFailed (fullSize chainSize offset : ℕ)
  /-- "Failed to write %i bytes into chain of %i bytes @ offset %i" -/
  | writeFailed (fullSize chainSize offset : ℕ)
  /-- `descriptors[index]` outside the queue -/
  | noDescriptor
  deriving DecidableEq, Repr

namespace VringDesc

/-- `hasNext`: `VRING_DESC_F_NEXT` -/
def hasNext (d : VringDesc) : Bool := d.flags.testBit 0

/-- `isOutgoing`: `VRING_DESC_F_WRITE` -/
def isOutgoing (d : VringDesc) : Bool := d.flags.testBit 1

/-- `isIncoming` -/
def isIncoming (d : VringDesc) : Bool := !d.isOutgoing

/-- `next`, as an index. -/
def next (d : VringDesc) : Option ℕ := if d.hasNext then some d.nextIndex else none

/-- `read`.  At every call `offset` is below the length, so the difference does not wrap. -/
def read (d : VringDesc) (mem : GuestBytes) (offset size : ℕ) :
    Except ChainFault (List UInt8) := do
  require .outsideBuffer (size ≤ d.len - offset)
  require .readOutgoing d.isIncoming
  return readBlob mem (d.addr + offset) size

/-- `write`, with the bytes as the source and its size. -/
def write (d : VringDesc) (mem : GuestBytes) (offset : ℕ) (src : List UInt8) :
    Except ChainFault GuestBytes := do
  require .outsideBuffer (src.length ≤ d.len - offset)
  require .writeIncoming d.isOutgoing
  return writeBlob mem (d.addr + offset) src

end VringDesc

/-- The descriptors of a queue, its address and its byte order. -/
structure DescTable where
  address : ℕ
  byteOrder : ByteOrder
  descriptors : List VringDesc
  deriving DecidableEq, Repr

/-! ## The descriptors in guest memory -/

namespace DescTable

/-- The descriptor with the given index as it stands in guest memory: address, length, flags and
the index of the next one. -/
def guestDesc (t : DescTable) (mem : GuestBytes) (index : ℕ) : VringDesc :=
  let bytes := readBlob mem (t.address + 16 * index) 16
  { addr := gtoh t.byteOrder (bytes.take 8)
    len := gtoh t.byteOrder ((bytes.drop 8).take 4)
    flags := gtoh t.byteOrder ((bytes.drop 12).take 2)
    nextIndex := gtoh t.byteOrder (bytes.drop 14) }

/-- `update` of a descriptor of the queue: nothing is read before the queue has an address. -/
def refresh (t : DescTable) (mem : GuestBytes) (index : ℕ) : DescTable :=
  if t.address = 0 then t
  else { t with descriptors := t.descriptors.set index (t.guestDesc mem index) }

/-- `update` -/
def update (t : DescTable) (mem : GuestBytes) (index : ℕ) : Except ChainFault DescTable := do
  require .noDescriptor (index < t.descriptors.length)
  return t.refresh mem index

/-- `next` of a descriptor of the queue. -/
def next (t : DescTable) (index : ℕ) : Option ℕ := t.descriptors[index]? >>= VringDesc.next

/-- One round of `updateChain`, at the descriptor with the given index. -/
def updateRound (mem : GuestBytes) (this : ℕ) (s : DescTable × ℕ) :
    (DescTable × ℕ) ⊕ Except ChainFault DescTable :=
  match s.1.update mem s.2 with
  | .error e => .inr (.error e)
  | .ok t =>
    match t.next s.2 with
    | none => .inr (.ok t)
    | some desc => if desc = this then .inr (.error .loopInChain) else .inl (t, desc)

/-- `updateChain` -/
def updateChain (t : DescTable) (mem : GuestBytes) (fuel this : ℕ) :
    Option (Except ChainFault DescTable) :=
  loop (updateRound mem this) fuel (t, this)

/-! ## Reading and writing along a chain -/

/-- One round of `chainSize`. -/
def sizeRound (t : DescTable) (s : VringDesc × ℕ) : (VringDesc × ℕ) ⊕ Except ChainFault ℕ :=
  let size := s.2 + s.1.len
  match s.1.next with
  | none => .inr (.ok size)
  | some i =>
    match t.descriptors[i]? with
    | none => .inr (.error .noDescriptor)
    | some desc => .inl (desc, size)

/-- `chainSize` -/
def chainSize (t : DescTable) (fuel : ℕ) (this : VringDesc) : Option (Except ChainFault ℕ) :=
  loop (sizeRound t) fuel (this, 0)

/-- The variables of `chainRead`, with the bytes read so far. -/
structure ReadState where
  desc : VringDesc
  offset : ℕ
  size : ℕ
  dst : List UInt8

/-- The body of `chainRead`. -/
def ReadState.chunk (s : ReadState) (mem : GuestBytes) : Except ChainFault ReadState :=
  if s.offset < s.desc.len then do
    let chunk_size := min (s.desc.len - s.offset) s.size
    let bytes ← s.desc.read mem s.offset chunk_size
    return { s with offset := 0, size := s.size - chunk_size, dst := s.dst ++ bytes }
  else return { s with offset := s.offset - s.desc.len }

/-- One round of `chainRead`: the next descriptor is looked at before the remaining size. -/
def readRound (t : DescTable) (mem : GuestBytes) (s : ReadState) :
    ReadState ⊕ Except ChainFault ReadState :=
  match s.chunk mem with
  | .error e => .inr (.error e)
  | .ok s' =>
    match s.desc.next with
    | none => .inr (.ok s')
    | some i =>
      match t.descriptors[i]? with
      | none => .inr (.error .noDescriptor)
      | some desc =>
        if desc.isIncoming && 0 < s'.size then .inl { s' with desc := desc } else .inr (.ok s')

/-- `chainRead` -/
def chainRead (t : DescTable) (mem : GuestBytes) (fuel : ℕ) (this : VringDesc)
    (offset size : ℕ) : Option (Except ChainFault (List UInt8)) :=
  match loop (readRound t mem) fuel ⟨this, offset, size, []⟩ with
  | none => none
  | some (.error e) => some (.error e)
  | some (.ok s) =>
    if s.size = 0 then some (.ok s.dst)
    else (t.chainSize fuel this).map fun r => do
      let total ← r
      throw (.readFailed size total s.offset)

/-- The variables of `chainWrite`, with the bytes not yet written. -/
structure WriteState where
  desc : VringDesc
  offset : ℕ
  src : List UInt8
  mem : GuestBytes

/-- The body of `chainWrite`. -/
def WriteState.chunk (s : WriteState) : Except ChainFault WriteState :=
  if s.offset < s.desc.len then do
    let chunk_size := min (s.desc.len - s.offset) s.src.length
    let mem ← s.desc.write s.mem s.offset (s.src.take chunk_size)
    return { s with offset := 0, src := s.src.drop chunk_size, mem := mem }
  else return { s with offset := s.offset - s.desc.len }

/-- One round of `chainWrite`. -/
def writeRound (t : DescTable) (s : WriteState) : WriteState ⊕ Except ChainFault WriteState :=
  match s.chunk with
  | .error e => .inr (.error e)
  | .ok s' =>
    match s.desc.next with
    | none => .inr (.ok s')
    | some i =>
      if s'.src = [] then .inr (.ok s')
      else
        match t.descriptors[i]? with
        | none => .inr (.error .noDescriptor)
        | some desc => .inl { s' with desc := desc }

/-- `chainWrite` -/
def chainWrite (t : DescTable) (mem : GuestBytes) (fuel : ℕ) (this : VringDesc) (offset : ℕ)
    (src : List UInt8) : Option (Except ChainFault GuestBytes) :=
  match loop (writeRound t) fuel ⟨this, offset, src, mem⟩ with
  | none => none
  | some (.error e) => some (.error e)
  | some (.ok s) =>
    if s.src = [] then some (.ok s.mem)
    else (t.chainSize fuel this).map fun r => do
      let total ← r
      throw (.writeFailed src.length total s.offset)

end DescTable

end Gem5.Virtio
