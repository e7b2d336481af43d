/-
# The read FIFO of a DMA device

Embedding of `DmaReadFifo` (`dev/dma_device.cc`, `dev/dma_device.hh`) in timing mode.  The FIFO is
filled by requests of bounded size for a block of memory; a few may be pending, and they complete in
any order.  The data of the first pending requests that are done moves to a circular buffer, and
`stopFill` cancels what is pending.

The device gets the bytes of the blocks in order, less the requests that were cancelled and what was
not requested when a block was stopped (`delivered_in_order`).
-/
import Gem5.CircleBuf
import Gem5.ChunkGenerator

namespace Gem5

open Runs

/-! ## State -/

/-- The addresses of `size` bytes. -/
def byteAddrs (addr size : ℕ) : List ℕ := (List.range size).map fun i => add64 addr i

/-- A request slot, with the address that it asks the port for.  `slot` names the object. -/
structure DmaDoneEvent where
  slot : ℕ
  done : Bool
  canceled : Bool
  requestSize : ℕ
  data : List (BitVec 8)
  addr : ℕ
  deriving DecidableEq, Repr

/-- A request that was made, for the log. -/
structure DmaRequest where
  addr : ℕ
  size : ℕ
  canceled : Bool
  deriving DecidableEq, Repr

/-- A block that was started; `left` bytes of it had not been requested when it was stopped. -/
structure DmaBlock where
  start : ℕ
  size : ℕ
  left : ℕ
  deriving DecidableEq, Repr

/-- The FIFO, with logs of the bytes returned, the requests made and the blocks started. -/
structure DmaReadFifo where
  maxReqSize : ℕ
  fifoSize : ℕ
  buffer : CircleBuf (BitVec 8)
  nextAddr : ℕ
  endAddr : ℕ
  pendingRequests : List DmaDoneEvent
  freeRequests : List DmaDoneEvent
  draining : Bool
  taken : List (BitVec 8)
  requests : List DmaRequest
  blocks : List DmaBlock

inductive ReadFifoFault
  | buffer (fault : CircleFault)
  | notAtEndOfBlock
  | requestTooLarge
  | alreadyDone
  deriving DecidableEq, Repr

namespace DmaDoneEvent

def cancel (e : DmaDoneEvent) : DmaDoneEvent := { e with canceled := true }

def reset (e : DmaDoneEvent) (size : ℕ) : Except ReadFifoFault DmaDoneEvent := do
  require .requestTooLarge (size ≤ e.data.length)
  return { e with
    done := false
    canceled := false
    requestSize := size }

/-- The port has read the bytes from memory. -/
def fill (e : DmaDoneEvent) (mem : ℕ → BitVec 8) : DmaDoneEvent :=
  { e with data := (byteAddrs e.addr e.requestSize).map mem ++ e.data.drop e.requestSize }

end DmaDoneEvent

namespace DmaReadFifo

open DmaDoneEvent

/-! ## Operations -/

def atEndOfBlock (f : DmaReadFifo) : Bool := f.nextAddr == f.endAddr

def isActive (f : DmaReadFifo) : Bool := !(f.pendingRequests.isEmpty && f.atEndOfBlock)

/-- The FIFO with a request of `size` bytes pending in the slot `e`. -/
def issued (f : DmaReadFifo) (e : DmaDoneEvent) (free : List DmaDoneEvent) (size : ℕ) :
    DmaReadFifo :=
  { f with
    freeRequests := free
    nextAddr := add64 f.nextAddr size
    pendingRequests := f.pendingRequests ++ [{ e with addr := f.nextAddr }]
    requests := f.requests ++ [⟨f.nextAddr, size, false⟩] }

/-- One round of the loop in `resumeFillTiming`. -/
def issue (f : DmaReadFifo) (e : DmaDoneEvent) (free : List DmaDoneEvent) (reqSize : ℕ) :
    Except ReadFifoFault DmaReadFifo := do
  let event ← e.reset reqSize
  return f.issued event free reqSize

/-- The loop in `resumeFillTiming`, with a round at most for every free slot. -/
def issueLoop : ℕ → DmaReadFifo → ℕ → Except ReadFifoFault DmaReadFifo
  | 0, f, _ => .ok f
  | rounds + 1, f, sizePending =>
      match f.freeRequests with
      | [] => .ok f
      | e :: free =>
          if f.atEndOfBlock then .ok f
          else
            let reqSize := min f.maxReqSize (sub64 f.endAddr f.nextAddr)
            if f.buffer.size + sizePending + reqSize > f.fifoSize then .ok f
            else do
              let f ← f.issue e free reqSize
              issueLoop rounds f (sizePending + reqSize)

def resumeFillTiming (f : DmaReadFifo) : Except ReadFifoFault DmaReadFifo :=
  issueLoop f.freeRequests.length f (f.pendingRequests.map (·.requestSize)).sum

/-- The body of `startFill`, up to `resumeFill`. -/
def begin (f : DmaReadFifo) (start size : ℕ) : Except ReadFifoFault DmaReadFifo := do
  require .notAtEndOfBlock f.atEndOfBlock
  return { f with
    nextAddr := start
    endAddr := add64 start size
    blocks := f.blocks ++ [⟨start, size, 0⟩] }

/-- `DmaReadFifo::resumeFill`.  At the end of a block the callback `onEndOfBlock` of the device may
start another one: `again` lists the blocks that it starts, one after the other. -/
def resumeFill : List (ℕ × ℕ) → DmaReadFifo → Except ReadFifoFault DmaReadFifo
  | [], f => if f.draining then .ok f else f.resumeFillTiming
  | (start, size) :: again, f =>
      if f.draining then .ok f
      else do
        let filled ← f.resumeFillTiming
        if !f.atEndOfBlock && filled.atEndOfBlock then do
          let begun ← filled.begin start size
          resumeFill again begun
        else return filled

def startFill (f : DmaReadFifo) (start size : ℕ) (again : List (ℕ × ℕ)) :
    Except ReadFifoFault DmaReadFifo := do
  let f ← f.begin start size
  f.resumeFill again

/-- `DmaReadFifo::tryGet`; the bytes go to the log. -/
def tryGet (f : DmaReadFifo) (len : ℕ) (again : List (ℕ × ℕ)) : Except ReadFifoFault DmaReadFifo :=
  if f.buffer.size ≥ len then do
    let (bytes, buffer) ← (f.buffer.read len).mapError .buffer
    { f with buffer := buffer, taken := f.taken ++ bytes }.resumeFill again
  else .ok f

/-- `DmaReadFifo::stopFill`; in the log, the last requests are cancelled and the block is cut. -/
def stopFill (f : DmaReadFifo) : DmaReadFifo :=
  { f with
    nextAddr := f.endAddr
    pendingRequests := f.pendingRequests.map cancel
    requests :=
      f.requests.take (f.requests.length - f.pendingRequests.length) ++
        (f.requests.drop (f.requests.length - f.pendingRequests.length)).map
          fun r => { r with canceled := true }
    blocks := f.blocks.modifyLast fun b =>
      { b with left := b.left + sub64 f.endAddr f.nextAddr } }

/-- The data of a request that is done goes to the buffer, unless it was cancelled. -/
def retire (buffer : CircleBuf (BitVec 8)) (e : DmaDoneEvent) :
    Except ReadFifoFault (CircleBuf (BitVec 8)) :=
  if e.canceled then .ok buffer
  else (buffer.fifoWrite (e.data.take e.requestSize)).mapError .buffer

/-- The loop in `DmaReadFifo::handlePending`. -/
def retireLoop : ℕ → DmaReadFifo → Except ReadFifoFault DmaReadFifo
  | 0, f => .ok f
  | rounds + 1, f =>
      match f.pendingRequests with
      | [] => .ok f
      | e :: pending =>
          if e.done then do
            let buffer ← retire f.buffer e
            retireLoop rounds { f with
              buffer := buffer
              pendingRequests := pending
              freeRequests := f.freeRequests ++ [e] }
          else .ok f

/-- `DmaReadFifo::handlePending`; `signalDrainDone` ends the draining. -/
def handlePending (f : DmaReadFifo) : Except ReadFifoFault DmaReadFifo := do
  let f ← retireLoop f.pendingRequests.length f
  return { f with draining := f.draining && !f.pendingRequests.isEmpty }

/-- `DmaReadFifo::dmaDone`.  What the callback `onIdle` does, it does last. -/
def dmaDone (f : DmaReadFifo) (again : List (ℕ × ℕ)) : Except ReadFifoFault DmaReadFifo := do
  let f ← f.handlePending
  f.resumeFill again

/-- `DmaDoneEvent::process`, for the pending request at a position. -/
def process (mem : ℕ → BitVec 8) (f : DmaReadFifo) (i : ℕ) (again : List (ℕ × ℕ)) :
    Except ReadFifoFault DmaReadFifo :=
  match f.pendingRequests[i]? with
  | none => .ok f
  | some e => do
      require .alreadyDone (!e.done)
      { f with pendingRequests := f.pendingRequests.set i { e.fill mem with done := true } }.dmaDone
        again

/-- The operations of the device, the completion of a request, and draining. -/
inductive Action
  | startFill (start size : ℕ) (again : List (ℕ × ℕ))
  | stopFill
  | tryGet (len : ℕ) (again : List (ℕ × ℕ))
  | process (i : ℕ) (again : List (ℕ × ℕ))
  | drain
  | drainResume
  deriving DecidableEq, Repr

def step (mem : ℕ → BitVec 8) (f : DmaReadFifo) : Action → Except ReadFifoFault DmaReadFifo
  | .startFill start size again => f.startFill start size again
  | .stopFill => .ok f.stopFill
  | .tryGet len again => f.tryGet len again
  | .process i again => f.process mem i again
  | .drain => .ok { f with draining := !f.pendingRequests.isEmpty }
  | .drainResume => .ok { f with draining := false }

/-- The constructor. -/
def new (size maxReqSize maxPending : ℕ) : DmaReadFifo where
  maxReqSize := maxReqSize
  fifoSize := size
  buffer := .new size 0
  nextAddr := 0
  endAddr := 0
  pendingRequests := []
  freeRequests := (List.range maxPending).map fun slot =>
    ⟨slot, false, false, 0, List.replicate maxReqSize 0, 0⟩
  draining := false
  taken := []
  requests := []
  blocks := []

/-! ## What the FIFO delivers -/

/-- The bytes of a request, none if it was cancelled. -/
def requestBytes (mem : ℕ → BitVec 8) (r : DmaRequest) : List (BitVec 8) :=
  if r.canceled then [] else (byteAddrs r.addr r.size).map mem

def sizePending (pending : List DmaDoneEvent) : ℕ := (pending.map (·.requestSize)).sum

/-- The request in a slot. -/
def requestOf (e : DmaDoneEvent) : DmaRequest := ⟨e.addr, e.requestSize, e.canceled⟩

/-- **Delivery in order.** -/
structure Delivers (mem : ℕ → BitVec 8) (maxPending : ℕ) (f : DmaReadFifo) : Prop where
  /-- what was returned and what is in the buffer are the bytes of the requests before the pending
  ones, less the cancelled ones -/
  stream : ∃ retired ys, f.requests = retired ++ f.pendingRequests.map requestOf ∧
    f.buffer.Represents ys ∧ f.taken ++ ys = retired.flatMap (requestBytes mem)
  /-- the requests go through the blocks in order, up to where a block was stopped -/
  tiled : f.requests.flatMap (fun r => byteAddrs r.addr r.size) ++
      byteAddrs f.nextAddr (sub64 f.endAddr f.nextAddr) =
    f.blocks.flatMap fun b => byteAddrs b.start (b.size - b.left)
  /-- nothing is overwritten -/
  room : f.buffer.size + sizePending f.pendingRequests ≤ f.fifoSize
  /-- every slot is free or pending -/
  slots : ((f.freeRequests ++ f.pendingRequests).map (·.slot)).Perm (List.range maxPending)

/-- The slots: each is there once, and what is done has its bytes. -/
structure Slots (mem : ℕ → BitVec 8) (maxReqSize maxPending : ℕ)
    (free pending : List DmaDoneEvent) : Prop where
  perm : ((free ++ pending).map (·.slot)).Perm (List.range maxPending)
  length : ∀ e ∈ free ++ pending, e.data.length = maxReqSize
  small : ∀ e ∈ pending, e.requestSize ≤ maxReqSize
  filled : ∀ e ∈ pending, e.done = true →
    e.data.take e.requestSize = (byteAddrs e.addr e.requestSize).map mem

/-- The requests and the blocks: what is not requested is the end of the last block. -/
structure Tiled (requests : List DmaRequest) (nextAddr endAddr : ℕ) (blocks : List DmaBlock) :
    Prop where
  tiled : requests.flatMap (fun r => byteAddrs r.addr r.size) ++
      byteAddrs nextAddr (sub64 endAddr nextAddr) =
    blocks.flatMap fun b => byteAddrs b.start (b.size - b.left)
  next_lt : nextAddr < 2 ^ 64
  end_lt : endAddr < 2 ^ 64
  last : ∀ b ∈ blocks.getLast?, b.left + sub64 endAddr nextAddr ≤ b.size
  idle : blocks = [] → nextAddr = endAddr

/-- The requests and the data: those before the pending ones went to the buffer. -/
structure Streams (mem : ℕ → BitVec 8) (fifoSize : ℕ) (requests : List DmaRequest)
    (pending : List DmaDoneEvent) (buffer : CircleBuf (BitVec 8)) (taken : List (BitVec 8)) :
    Prop where
  stream : ∃ retired ys, requests = retired ++ pending.map requestOf ∧
    buffer.Represents ys ∧ taken ++ ys = retired.flatMap (requestBytes mem)
  capacity : buffer.capacity = fifoSize
  room : buffer.size + sizePending pending ≤ fifoSize

/-- The invariant of the FIFO. -/
structure Sound (mem : ℕ → BitVec 8) (maxPending : ℕ) (f : DmaReadFifo) : Prop where
  slots : Slots mem f.maxReqSize maxPending f.freeRequests f.pendingRequests
  tiled : Tiled f.requests f.nextAddr f.endAddr f.blocks
  streams : Streams mem f.fifoSize f.requests f.pendingRequests f.buffer f.taken

theorem Sound.delivers {mem : ℕ → BitVec 8} {maxPending : ℕ} {f : DmaReadFifo}
    (h : Sound mem maxPending f) : Delivers mem maxPending f :=
  ⟨h.streams.stream, h.tiled.tiled, h.streams.room, h.slots.perm⟩

/-! ## Blocks -/

theorem byteAddrs_add (addr n m : ℕ) :
    byteAddrs addr (n + m) = byteAddrs addr n ++ byteAddrs (add64 addr n) m := by
  rw [byteAddrs, List.range_add, List.map_append, List.map_map]
  congr 1
  refine List.map_congr_left fun i _ => ?_
  simp only [Function.comp_apply, add64]
  rw [Nat.mod_add_mod, Nat.add_assoc]

theorem length_byteAddrs (addr n : ℕ) : (byteAddrs addr n).length = n := by
  rw [byteAddrs, List.length_map, List.length_range]

/-- Less is left behind the next bytes. -/
theorem sub64_add64 {a b n : ℕ} (ha : a < 2 ^ 64) (hb : b < 2 ^ 64) (hn : n ≤ sub64 b a) :
    sub64 b (add64 a n) = sub64 b a - n := by
  rw [sub64] at *
  rw [sub64, add64]
  rcases Nat.lt_or_ge (a + n) (2 ^ 64) with hlt | hge
  · rw [Nat.mod_eq_of_lt hlt]
    omega
  · have hmod : (a + n) % 2 ^ 64 = a + n - 2 ^ 64 := by omega
    rw [hmod]
    omega

theorem sub64_eq_zero {a b : ℕ} (ha : a < 2 ^ 64) (hb : b < 2 ^ 64) : sub64 b a = 0 ↔ a = b := by
  rw [sub64]
  omega

section

variable {requests : List DmaRequest} {nextAddr endAddr : ℕ} {blocks : List DmaBlock}

/-- **A request** for the next bytes of the block. -/
theorem Tiled.request (h : Tiled requests nextAddr endAddr blocks) {size : ℕ}
    (hsize : size ≤ sub64 endAddr nextAddr) :
    Tiled (requests ++ [⟨nextAddr, size, false⟩]) (add64 nextAddr size) endAddr blocks where
  tiled := by
    rw [sub64_add64 h.next_lt h.end_lt hsize, ← h.tiled, List.flatMap_append, List.append_assoc,
      List.flatMap_singleton, ← byteAddrs_add, Nat.add_sub_cancel' hsize]
  next_lt := Nat.mod_lt _ (Nat.two_pow_pos 64)
  end_lt := h.end_lt
  last b hb := by
    rw [sub64_add64 h.next_lt h.end_lt hsize]
    exact (Nat.add_le_add_left (Nat.sub_le _ _) _).trans (h.last b hb)
  idle hb := by
    have hidle := h.idle hb
    subst hidle
    rw [sub64, Nat.add_sub_cancel_left, Nat.mod_self] at hsize
    rw [Nat.eq_zero_of_le_zero hsize, add64, Nat.add_zero, Nat.mod_eq_of_lt h.next_lt]

/-- **A new block** behind one that is requested whole. -/
theorem Tiled.begin (h : Tiled requests nextAddr endAddr blocks) (hend : nextAddr = endAddr)
    {start size : ℕ} (hstart : start < 2 ^ 64) (hsize : size < 2 ^ 64) :
    Tiled requests start (add64 start size) (blocks ++ [⟨start, size, 0⟩]) := by
  have hrest : sub64 (add64 start size) start = size := by
    rw [sub64, add64]
    omega
  have hnone : sub64 endAddr nextAddr = 0 := (sub64_eq_zero h.next_lt h.end_lt).mpr hend
  have htiled := h.tiled
  rw [hnone] at htiled
  exact
    { tiled := by
        rw [hrest, List.flatMap_append, ← htiled, List.flatMap_singleton]
        exact congrArg (· ++ _) (List.append_nil _).symm
      next_lt := hstart
      end_lt := Nat.mod_lt _ (Nat.two_pow_pos 64)
      last := by
        intro b hb
        rw [List.getLast?_concat, Option.mem_def, Option.some.injEq] at hb
        rw [← hb, hrest, Nat.zero_add]
      idle := fun hb => absurd hb (List.append_ne_nil_of_right_ne_nil _ (List.cons_ne_nil _ _)) }

/-- **Stopping** cuts the last block where the requests end. -/
theorem Tiled.stop (h : Tiled requests nextAddr endAddr blocks) {requests' : List DmaRequest}
    (hsame : requests'.flatMap (fun r => byteAddrs r.addr r.size) =
      requests.flatMap fun r => byteAddrs r.addr r.size) :
    Tiled requests' endAddr endAddr
      (blocks.modifyLast fun b => { b with left := b.left + sub64 endAddr nextAddr }) := by
  have hself : sub64 endAddr endAddr = 0 := (sub64_eq_zero h.end_lt h.end_lt).mpr rfl
  rcases List.eq_nil_or_concat' blocks with rfl | ⟨init, b, rfl⟩
  · have htiled := h.tiled
    rw [h.idle rfl, hself] at htiled
    exact
      { tiled := by
          rw [hself, hsame]
          exact htiled
        next_lt := h.end_lt
        end_lt := h.end_lt
        last := nofun
        idle := fun _ => rfl }
  · have hlast := h.last b List.getLast?_concat
    rw [List.modifyLast_concat]
    exact
      { tiled := by
          have htiled := h.tiled
          have hcut : b.size - b.left =
              b.size - (b.left + sub64 endAddr nextAddr) + sub64 endAddr nextAddr := by omega
          rw [List.flatMap_append, List.flatMap_singleton, hcut, byteAddrs_add,
            ← List.append_assoc] at htiled
          have hkept := (List.append_inj' htiled (by rw [length_byteAddrs, length_byteAddrs])).1
          rw [hself, hsame, hkept, List.flatMap_append, List.flatMap_singleton]
          exact List.append_nil _
        next_lt := h.end_lt
        end_lt := h.end_lt
        last := by
          intro c hc
          rw [List.getLast?_concat, Option.mem_def, Option.some.injEq] at hc
          rw [← hc, hself, Nat.add_zero]
          exact hlast
        idle := fun _ => rfl }

end

/-! ## Slots and data -/

section

variable {mem : ℕ → BitVec 8} {maxReqSize maxPending fifoSize : ℕ}
  {free pending : List DmaDoneEvent} {requests : List DmaRequest} {buffer : CircleBuf (BitVec 8)}
  {taken : List (BitVec 8)}

theorem sizePending_append (xs ys : List DmaDoneEvent) :
    sizePending (xs ++ ys) = sizePending xs + sizePending ys := by
  rw [sizePending, List.map_append, List.sum_append]
  rfl

/-- A free slot becomes the last one pending. -/
theorem Slots.request {e : DmaDoneEvent} (h : Slots mem maxReqSize maxPending (e :: free) pending)
    {size : ℕ} (hsize : size ≤ maxReqSize) (addr : ℕ) :
    Slots mem maxReqSize maxPending free
      (pending ++
        [{ e with done := false, canceled := false, requestSize := size, addr := addr }]) where
  perm := by
    refine List.Perm.trans ?_ h.perm
    rw [← List.append_assoc, List.map_append]
    exact List.perm_append_singleton e.slot ((free ++ pending).map (·.slot))
  length e' he' := by
    rw [← List.append_assoc, List.mem_append, List.mem_singleton] at he'
    rcases he' with hold | rfl
    · exact h.length e' (List.mem_cons_of_mem _ hold)
    · exact h.length e List.mem_cons_self
  small e' he' := by
    rw [List.mem_append, List.mem_singleton] at he'
    rcases he' with hold | rfl
    · exact h.small e' hold
    · exact hsize
  filled e' he' hdone := by
    rw [List.mem_append, List.mem_singleton] at he'
    rcases he' with hold | rfl
    · exact h.filled e' hold hdone
    · cases hdone

/-- The first pending slot becomes free. -/
theorem Slots.retire {e : DmaDoneEvent} (h : Slots mem maxReqSize maxPending free (e :: pending)) :
    Slots mem maxReqSize maxPending (free ++ [e]) pending where
  perm := by
    rw [List.append_assoc]
    exact h.perm
  length := by
    rw [List.append_assoc]
    exact h.length
  small e' he' := h.small e' (List.mem_cons_of_mem _ he')
  filled e' he' := h.filled e' (List.mem_cons_of_mem _ he')

/-- The pending slots change, but for their objects and the room in them. -/
theorem Slots.map (h : Slots mem maxReqSize maxPending free pending)
    {pending' : List DmaDoneEvent} (hslots : pending'.map (·.slot) = pending.map (·.slot))
    (hsame : ∀ e' ∈ pending', ∃ e ∈ pending, e'.data.length = e.data.length ∧
      e'.requestSize = e.requestSize)
    (hfilled : ∀ e' ∈ pending', e'.done = true →
      e'.data.take e'.requestSize = (byteAddrs e'.addr e'.requestSize).map mem) :
    Slots mem maxReqSize maxPending free pending' where
  perm := by
    rw [List.map_append, hslots, ← List.map_append]
    exact h.perm
  length e' he' := by
    rcases List.mem_append.mp he' with hfree | hpending
    · exact h.length e' (List.mem_append_left _ hfree)
    · obtain ⟨e, he, hlength, -⟩ := hsame e' hpending
      exact hlength.trans (h.length e (List.mem_append_right _ he))
  small e' he' := by
    obtain ⟨e, he, -, hsize⟩ := hsame e' he'
    exact hsize.trans_le (h.small e he)
  filled := hfilled

/-- A request joins the pending ones. -/
theorem Streams.request (h : Streams mem fifoSize requests pending buffer taken)
    {e : DmaDoneEvent} (hroom : buffer.size + sizePending pending + e.requestSize ≤ fifoSize) :
    Streams mem fifoSize (requests ++ [requestOf e]) (pending ++ [e]) buffer taken where
  stream := by
    obtain ⟨retired, ys, hrequests, hbuffer, htaken⟩ := h.stream
    refine ⟨retired, ys, ?_, hbuffer, htaken⟩
    rw [hrequests, List.map_append, List.append_assoc]
    rfl
  capacity := h.capacity
  room := by
    rw [sizePending_append, ← Nat.add_assoc]
    exact hroom

/-- **The data of the first request** goes to the buffer, unless it was cancelled. -/
theorem Streams.retire {e : DmaDoneEvent}
    (h : Streams mem fifoSize requests (e :: pending) buffer taken)
    (hfilled : e.data.take e.requestSize = (byteAddrs e.addr e.requestSize).map mem) :
    ∃ buffer', DmaReadFifo.retire buffer e = .ok buffer' ∧
      Streams mem fifoSize requests pending buffer' taken := by
  obtain ⟨retired, ys, hrequests, hbuffer, htaken⟩ := h.stream
  have hroom := h.room
  have hlength : ys.length = buffer.size := hbuffer.length
  have hsum : sizePending (e :: pending) = e.requestSize + sizePending pending := rfl
  have hrequests' : requests = (retired ++ [requestOf e]) ++ pending.map requestOf := by
    rw [hrequests, List.append_assoc]
    rfl
  have hbytes : (retired ++ [requestOf e]).flatMap (requestBytes mem) =
      retired.flatMap (requestBytes mem) ++ requestBytes mem (requestOf e) := by
    rw [List.flatMap_append, List.flatMap_singleton]
  rw [DmaReadFifo.retire]
  cases hcanceled : e.canceled with
  | true =>
    rw [if_pos rfl]
    refine ⟨buffer, rfl, ⟨⟨_, ys, hrequests', hbuffer, ?_⟩, h.capacity, by omega⟩⟩
    rw [hbytes, htaken, requestBytes, requestOf, if_pos hcanceled, List.append_nil]
  | false =>
    rw [if_neg Bool.false_ne_true, hfilled]
    have hdata : ((byteAddrs e.addr e.requestSize).map mem).length = e.requestSize := by
      rw [List.length_map, length_byteAddrs]
    obtain ⟨buffer', hwrite, hbuffer', hcapacity⟩ :=
      hbuffer.fifoWrite (by rw [h.capacity]; omega : ys.length +
        ((byteAddrs e.addr e.requestSize).map mem).length ≤ buffer.capacity)
    have hsize : buffer'.size = buffer.size + e.requestSize := by
      have hlength' : (ys ++ (byteAddrs e.addr e.requestSize).map mem).length = buffer'.size :=
        hbuffer'.length
      rw [← hlength', List.length_append, hdata, hlength]
    refine ⟨buffer', by rw [hwrite]; rfl,
      ⟨⟨_, _, hrequests', hbuffer', ?_⟩, hcapacity.trans h.capacity, by omega⟩⟩
    rw [hbytes, ← htaken, requestBytes, requestOf,
      if_neg (by rw [hcanceled]; exact Bool.false_ne_true), List.append_assoc]

/-- **Reading** the first bytes of the buffer. -/
theorem Streams.read (h : Streams mem fifoSize requests pending buffer taken) {len : ℕ}
    (hlen : len ≤ buffer.size) :
    ∃ bytes buffer', buffer.read len = .ok (bytes, buffer') ∧
      Streams mem fifoSize requests pending buffer' (taken ++ bytes) := by
  obtain ⟨retired, ys, hrequests, hbuffer, htaken⟩ := h.stream
  have hlength : ys.length = buffer.size := hbuffer.length
  have hroom := h.room
  obtain ⟨buffer', hread, hbuffer', hcapacity⟩ := hbuffer.read (hlength ▸ hlen)
  have hsize : buffer'.size ≤ buffer.size := by
    have hlength' : (ys.drop len).length = buffer'.size := hbuffer'.length
    rw [← hlength', ← hlength, List.length_drop]
    exact Nat.sub_le _ _
  refine ⟨_, buffer', hread, ⟨⟨retired, _, hrequests, hbuffer', ?_⟩, hcapacity.trans h.capacity,
    by omega⟩⟩
  rw [List.append_assoc, List.take_append_drop, htaken]

/-- The pending requests change, but for their sizes and addresses. -/
theorem Streams.map {pending' : List DmaDoneEvent}
    (h : Streams mem fifoSize requests pending buffer taken)
    (hsame : pending'.map requestOf = pending.map requestOf)
    (hsize : sizePending pending' = sizePending pending) :
    Streams mem fifoSize requests pending' buffer taken where
  stream := by
    rw [hsame]
    exact h.stream
  capacity := h.capacity
  room := hsize ▸ h.room

/-- **Stopping** marks the pending requests, in the slots and in the log. -/
theorem Streams.stop (h : Streams mem fifoSize requests pending buffer taken) :
    Streams mem fifoSize
      (requests.take (requests.length - pending.length) ++
        (requests.drop (requests.length - pending.length)).map
          fun r => { r with canceled := true })
      (pending.map DmaDoneEvent.cancel) buffer taken where
  stream := by
    obtain ⟨retired, ys, hrequests, hbuffer, htaken⟩ := h.stream
    have hkept : requests.length - pending.length = retired.length := by
      rw [hrequests, List.length_append, List.length_map, Nat.add_sub_cancel]
    refine ⟨retired, ys, ?_, hbuffer, htaken⟩
    rw [hkept, hrequests, List.take_left, List.drop_left, List.map_map, List.map_map]
    rfl
  capacity := h.capacity
  room := by
    have hsize : sizePending (pending.map DmaDoneEvent.cancel) = sizePending pending := by
      rw [sizePending, List.map_map]
      rfl
    rw [hsize]
    exact h.room

end

/-! ## Operations -/

section

variable {mem : ℕ → BitVec 8} {maxPending : ℕ} {f : DmaReadFifo}

/-- **A round of the loop** that makes requests. -/
theorem Sound.issue (h : Sound mem maxPending f) {e : DmaDoneEvent} {free : List DmaDoneEvent}
    (hfree : f.freeRequests = e :: free) {size : ℕ} (hmax : size ≤ f.maxReqSize)
    (hleft : size ≤ sub64 f.endAddr f.nextAddr)
    (hroom : f.buffer.size + sizePending f.pendingRequests + size ≤ f.fifoSize) :
    ∃ f', f.issue e free size = .ok f' ∧ Sound mem maxPending f' ∧
      sizePending f'.pendingRequests = sizePending f.pendingRequests + size := by
  have hslots := h.slots
  rw [hfree] at hslots
  have hlength : e.data.length = f.maxReqSize := hslots.length e List.mem_cons_self
  have hreset : e.reset size =
      .ok { e with done := false, canceled := false, requestSize := size } :=
    bind_eq_ok.mpr ⟨(), require_ok (decide_eq_true (hmax.trans_eq hlength.symm)), rfl⟩
  refine ⟨_, bind_eq_ok.mpr ⟨_, hreset, rfl⟩, ⟨?_, ?_, ?_⟩, ?_⟩
  · exact hslots.request hmax f.nextAddr
  · exact h.tiled.request hleft
  · exact h.streams.request (e := ⟨e.slot, false, false, size, e.data, f.nextAddr⟩) hroom
  · exact sizePending_append _ _

theorem Sound.issueLoop (h : Sound mem maxPending f) (rounds : ℕ) {pending : ℕ}
    (hpending : pending = sizePending f.pendingRequests) :
    ∃ f', issueLoop rounds f pending = .ok f' ∧ Sound mem maxPending f' := by
  induction rounds generalizing f pending with
  | zero => exact ⟨f, rfl, h⟩
  | succ rounds ih =>
    rw [DmaReadFifo.issueLoop]
    cases hfree : f.freeRequests with
    | nil => exact ⟨f, rfl, h⟩
    | cons e free =>
      dsimp only
      split
      · exact ⟨f, rfl, h⟩
      · split
        · exact ⟨f, rfl, h⟩
        · rename_i hroom
          rw [not_lt, hpending] at hroom
          obtain ⟨f', hissue, hsound, hsize⟩ := h.issue hfree (min_le_left _ _)
            (min_le_right _ _) hroom
          rw [← hpending] at hsize
          obtain ⟨f'', hloop, hsound'⟩ := ih hsound hsize.symm
          exact ⟨f'', bind_eq_ok.mpr ⟨f', hissue, hloop⟩, hsound'⟩

theorem Sound.resumeFillTiming (h : Sound mem maxPending f) :
    ∃ f', f.resumeFillTiming = .ok f' ∧ Sound mem maxPending f' :=
  h.issueLoop f.freeRequests.length rfl

/-- **A new block.** -/
theorem Sound.begin (h : Sound mem maxPending f) (hend : f.atEndOfBlock = true) {start size : ℕ}
    (hstart : start < 2 ^ 64) (hsize : size < 2 ^ 64) :
    ∃ f', f.begin start size = .ok f' ∧ Sound mem maxPending f' :=
  ⟨_, bind_eq_ok.mpr ⟨(), require_ok hend, rfl⟩,
    ⟨h.slots, h.tiled.begin (beq_iff_eq.mp hend) hstart hsize, h.streams⟩⟩

/-- Blocks are given by addresses and sizes of 64 bits. -/
def Addressable (again : List (ℕ × ℕ)) : Prop := ∀ b ∈ again, b.1 < 2 ^ 64 ∧ b.2 < 2 ^ 64

instance (again : List (ℕ × ℕ)) : Decidable (Addressable again) :=
  inferInstanceAs (Decidable (∀ b ∈ again, _))

theorem Sound.resumeFill (h : Sound mem maxPending f) {again : List (ℕ × ℕ)}
    (hagain : Addressable again) :
    ∃ f', f.resumeFill again = .ok f' ∧ Sound mem maxPending f' := by
  induction again generalizing f with
  | nil =>
    rw [DmaReadFifo.resumeFill]
    split
    · exact ⟨f, rfl, h⟩
    · exact h.resumeFillTiming
  | cons b again ih =>
    obtain ⟨start, size⟩ := b
    obtain ⟨⟨hstart, hsize⟩, hrest⟩ := List.forall_mem_cons.mp hagain
    rw [DmaReadFifo.resumeFill]
    split
    · exact ⟨f, rfl, h⟩
    · obtain ⟨filled, hfill, hfilled⟩ := h.resumeFillTiming
      by_cases hend : (!f.atEndOfBlock && filled.atEndOfBlock) = true
      · obtain ⟨begun, hbegin, hbegun⟩ :=
          hfilled.begin (Bool.and_eq_true_iff.mp hend).2 hstart hsize
        obtain ⟨f', hresume, hsound⟩ := ih hbegun hrest
        refine ⟨f', bind_eq_ok.mpr ⟨filled, hfill, ?_⟩, hsound⟩
        rw [if_pos hend]
        exact bind_eq_ok.mpr ⟨begun, hbegin, hresume⟩
      · refine ⟨filled, bind_eq_ok.mpr ⟨filled, hfill, ?_⟩, hfilled⟩
        rw [if_neg hend]
        rfl

theorem Sound.retireLoop (h : Sound mem maxPending f) (rounds : ℕ) :
    ∃ f', retireLoop rounds f = .ok f' ∧ Sound mem maxPending f' := by
  induction rounds generalizing f with
  | zero => exact ⟨f, rfl, h⟩
  | succ rounds ih =>
    rw [DmaReadFifo.retireLoop]
    cases hpending : f.pendingRequests with
    | nil => exact ⟨f, rfl, h⟩
    | cons e pending =>
      dsimp only
      by_cases hdone : e.done = true
      · have hslots := h.slots
        have hstreams := h.streams
        rw [hpending] at hslots hstreams
        obtain ⟨buffer, hretire, hstreams'⟩ :=
          hstreams.retire (hslots.filled e List.mem_cons_self hdone)
        have hsound : Sound mem maxPending { f with
            buffer := buffer
            pendingRequests := pending
            freeRequests := f.freeRequests ++ [e] } := ⟨hslots.retire, h.tiled, hstreams'⟩
        obtain ⟨f', hloop, hsound'⟩ := ih hsound
        rw [if_pos hdone]
        exact ⟨f', bind_eq_ok.mpr ⟨buffer, hretire, hloop⟩, hsound'⟩
      · rw [if_neg hdone]
        exact ⟨f, rfl, h⟩

theorem Sound.dmaDone (h : Sound mem maxPending f) {again : List (ℕ × ℕ)}
    (hagain : Addressable again) :
    ∃ f', f.dmaDone again = .ok f' ∧ Sound mem maxPending f' := by
  obtain ⟨f₁, hloop, h₁⟩ := h.retireLoop f.pendingRequests.length
  have h₂ : Sound mem maxPending
      { f₁ with draining := f₁.draining && !f₁.pendingRequests.isEmpty } :=
    ⟨h₁.slots, h₁.tiled, h₁.streams⟩
  obtain ⟨f', hresume, hsound⟩ := h₂.resumeFill hagain
  exact ⟨f', bind_eq_ok.mpr ⟨_, bind_eq_ok.mpr ⟨f₁, hloop, rfl⟩, hresume⟩, hsound⟩

/-- **A request completes**: its slot holds the bytes of memory. -/
theorem Sound.fill (h : Sound mem maxPending f) {i : ℕ} {e : DmaDoneEvent}
    (he : f.pendingRequests[i]? = some e) :
    Sound mem maxPending
      { f with pendingRequests := f.pendingRequests.set i { e.fill mem with done := true } } := by
  have hmem : e ∈ f.pendingRequests := List.mem_of_getElem? he
  have hlength := h.slots.length e (List.mem_append_right _ hmem)
  have hsmall := h.slots.small e hmem
  have hread : ((byteAddrs e.addr e.requestSize).map mem).length = e.requestSize := by
    rw [List.length_map, length_byteAddrs]
  -- every slot keeps what does not depend on the data
  have hkeep : ∀ {β : Type} (g : DmaDoneEvent → β), g { e.fill mem with done := true } = g e →
      (f.pendingRequests.set i { e.fill mem with done := true }).map g =
        f.pendingRequests.map g := by
    intro β g hg
    obtain ⟨hi, rfl⟩ := List.getElem?_eq_some_iff.mp he
    have hi' : i < (f.pendingRequests.map g).length := by rwa [List.length_map]
    rw [List.map_set, hg, ← List.getElem_map g (h := hi')]
    exact List.set_getElem_self hi'
  refine ⟨h.slots.map (hkeep _ rfl) ?_ ?_, h.tiled, h.streams.map (hkeep _ rfl) ?_⟩
  · intro e' he'
    rcases List.mem_or_eq_of_mem_set he' with hold | rfl
    · exact ⟨e', hold, rfl, rfl⟩
    · refine ⟨e, hmem, ?_, rfl⟩
      dsimp only [DmaDoneEvent.fill]
      rw [List.length_append, hread, List.length_drop]
      omega
  · intro e' he' hdone
    rcases List.mem_or_eq_of_mem_set he' with hold | rfl
    · exact h.slots.filled e' hold hdone
    · exact List.take_left' hread
  · exact congrArg List.sum (hkeep (·.requestSize) rfl)

theorem Sound.stopFill (h : Sound mem maxPending f) : Sound mem maxPending f.stopFill where
  slots := by
    refine h.slots.map (List.map_map ..) ?_ ?_
    · intro e' he'
      obtain ⟨e, he, rfl⟩ := List.mem_map.mp he'
      exact ⟨e, he, rfl, rfl⟩
    · intro e' he' hdone
      obtain ⟨e, he, rfl⟩ := List.mem_map.mp he'
      exact h.slots.filled e he hdone
  tiled := by
    refine h.tiled.stop ?_
    rw [DmaReadFifo.stopFill, List.flatMap_append, List.flatMap_map, ← List.flatMap_append,
      List.take_append_drop]
  streams := h.streams.stop

theorem Sound.tryGet (h : Sound mem maxPending f) (len : ℕ) {again : List (ℕ × ℕ)}
    (hagain : Addressable again) :
    ∃ f', f.tryGet len again = .ok f' ∧ Sound mem maxPending f' := by
  rw [DmaReadFifo.tryGet]
  split
  · rename_i hlen
    obtain ⟨bytes, buffer, hread, hstreams⟩ := h.streams.read hlen
    have hsound : Sound mem maxPending
        { f with buffer := buffer, taken := f.taken ++ bytes } := ⟨h.slots, h.tiled, hstreams⟩
    obtain ⟨f', hresume, hsound'⟩ := hsound.resumeFill hagain
    exact ⟨f', bind_eq_ok.mpr ⟨(bytes, buffer), by rw [hread]; rfl, hresume⟩, hsound'⟩
  · exact ⟨f, rfl, h⟩

/-- What can happen: a block is started at the end of a block, and a request that is not done
completes. -/
def Possible (f : DmaReadFifo) : Action → Prop
  | .startFill start size again =>
      f.atEndOfBlock = true ∧ start < 2 ^ 64 ∧ size < 2 ^ 64 ∧ Addressable again
  | .tryGet _ again => Addressable again
  | .process i again => (∃ e ∈ f.pendingRequests[i]?, e.done = false) ∧ Addressable again
  | _ => True

instance (f : DmaReadFifo) : DecidablePred f.Possible
  | .startFill .. => inferInstanceAs (Decidable (_ ∧ _))
  | .stopFill => .isTrue trivial
  | .tryGet _ again => inferInstanceAs (Decidable (Addressable again))
  | .process .. => inferInstanceAs (Decidable (_ ∧ _))
  | .drain => .isTrue trivial
  | .drainResume => .isTrue trivial

/-- **Every step that can happen** passes the assertions and keeps the invariant. -/
theorem Sound.step (h : Sound mem maxPending f) {a : Action} (ha : f.Possible a) :
    ∃ f', f.step mem a = .ok f' ∧ Sound mem maxPending f' := by
  cases a with
  | startFill start size again =>
    obtain ⟨hend, hstart, hsize, hagain⟩ := ha
    obtain ⟨f₁, hbegin, h₁⟩ := h.begin hend hstart hsize
    obtain ⟨f', hresume, hsound⟩ := h₁.resumeFill hagain
    exact ⟨f', bind_eq_ok.mpr ⟨f₁, hbegin, hresume⟩, hsound⟩
  | stopFill => exact ⟨_, rfl, h.stopFill⟩
  | tryGet len again => exact h.tryGet len ha
  | process i again =>
    obtain ⟨⟨e, he, hdone⟩, hagain⟩ := ha
    obtain ⟨f', hstep, hsound⟩ := (h.fill he).dmaDone hagain
    refine ⟨f', ?_, hsound⟩
    rw [DmaReadFifo.step, DmaReadFifo.process, he]
    exact bind_eq_ok.mpr ⟨(), require_ok (by rw [hdone]; rfl), hstep⟩
  | drain => exact ⟨_, rfl, ⟨h.slots, h.tiled, h.streams⟩⟩
  | drainResume => exact ⟨_, rfl, ⟨h.slots, h.tiled, h.streams⟩⟩

end

theorem sound_new (mem : ℕ → BitVec 8) (size maxReqSize maxPending : ℕ) :
    Sound mem maxPending (new size maxReqSize maxPending) where
  slots :=
    { perm := by
        have hslots : ((new size maxReqSize maxPending).freeRequests ++ []).map
            (fun e : DmaDoneEvent => e.slot) = List.range maxPending := by
          rw [List.append_nil, new, List.map_map]
          exact List.map_id _
        exact .of_eq hslots
      length := by
        intro e he
        obtain ⟨slot, -, rfl⟩ := List.mem_map.mp (List.append_nil _ ▸ he)
        exact List.length_replicate
      small := nofun
      filled := nofun }
  tiled :=
    { tiled := by
        have hnone : sub64 0 0 = 0 := (sub64_eq_zero (by omega) (by omega)).mpr rfl
        change [] ++ byteAddrs 0 (sub64 0 0) = []
        rw [hnone]
        rfl
      next_lt := by
        change 0 < 2 ^ 64
        omega
      end_lt := by
        change 0 < 2 ^ 64
        omega
      last := nofun
      idle := fun _ => rfl }
  streams :=
    ⟨⟨[], [], rfl, CircleBuf.represents_new size 0, rfl⟩, List.length_replicate, Nat.zero_le _⟩

/-- **The bytes of the blocks come in order**, whatever the order in which the requests complete:
every run passes the assertions, and in the state reached what was returned and what is in the
buffer are the bytes of the requests up to the pending ones, less the cancelled ones; nothing is
overwritten and no slot lost. -/
theorem delivered_in_order (mem : ℕ → BitVec 8) (size maxReqSize maxPending : ℕ) {as : List Action}
    (ha : Admitted Possible (step mem) (new size maxReqSize maxPending) as) :
    ∃ f, run (step mem) (new size maxReqSize maxPending) as = .ok f ∧
      Delivers mem maxPending f := by
  obtain ⟨f, hrun, hsound⟩ := run_total (fun _ _ h ha => h.step ha)
    (sound_new mem size maxReqSize maxPending) ha
  exact ⟨f, hrun, hsound.delivers⟩

/-- Requests that complete out of order, one of them cancelled. -/
theorem delivered_in_order_two_blocks :
    ∃ f, run (step fun a => BitVec.ofNat 8 a) (new 16 4 3)
      [.startFill 0 12 [], .process 1 [], .process 0 [], .stopFill, .startFill 100 6 [],
        .process 1 [], .process 0 [], .tryGet 10 []] = .ok f ∧
      Delivers (fun a => BitVec.ofNat 8 a) 3 f :=
  delivered_in_order (fun a => BitVec.ofNat 8 a) 16 4 3 (by decide +kernel)

/-- What was not requested when a block is stopped is left out, though no request was cancelled. -/
theorem unrequested_left_out :
    ∃ f, run (step fun a => BitVec.ofNat 8 a) (new 8 4 2)
        [.startFill 0 12 [], .process 0 [], .process 0 [], .stopFill, .tryGet 8 [],
          .startFill 100 4 [], .process 0 [], .tryGet 4 []] = .ok f ∧
      (f.pendingRequests = [] ∧ f.atEndOfBlock = true ∧ (∀ r ∈ f.requests, r.canceled = false) ∧
        f.taken ≠ f.blocks.flatMap fun b =>
          (byteAddrs b.start b.size).map fun a => BitVec.ofNat 8 a) := by
  decide +kernel

end DmaReadFifo

end Gem5
