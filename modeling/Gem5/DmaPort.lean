/-
# The DMA port of a device

Embedding of `DmaPort` (`dev/dma_device.cc`, `dev/dma_device.hh`).  An action of the device is split
into chunks.  In timing mode one packet is sent per chunk, a refused packet is kept until the
retry, and the responses come in any order; in atomic mode an action is carried out at once, by
packets or, with the caches bypassed, through recorded backdoors to the memory.  The action is
complete when the sizes of its responses add up to its size.

The memory that the packets reach is outside: whether it accepts a packet, when it answers and
which backdoors it hands out are arguments.  What was moved is kept in a log.
-/
import Gem5.ChunkGenerator

namespace Gem5.Dma

open Runs

/-! ## State -/

inductive DmaCmd
  | read
  | write
  deriving DecidableEq, Repr

/-- A memory backdoor, by its range `[start, stop)`. -/
structure Backdoor where
  start : ℕ
  stop : ℕ
  deriving DecidableEq, Repr

/-- Whether `AddrRangeMap::contains(addr)` takes the range: the end of the range of one byte wraps
around at the last address, and then every range will do. -/
def Backdoor.contains (b : Backdoor) (addr : ℕ) : Bool :=
  b.start ≤ addr && add64 addr 1 ≤ b.stop

/-- What the device asks for. -/
structure Request where
  cmd : DmaCmd
  addr : ℕ
  size : ℕ
  event : Bool
  data : Bool
  delay : ℕ
  deriving DecidableEq, Repr

/-- `DmaReqState`; `completionEvent` and `data` say whether there is an event and a buffer. -/
structure DmaReqState where
  cmd : DmaCmd
  completionEvent : Bool
  totBytes : ℕ
  numBytes : ℕ
  delay : ℕ
  gen : ChunkGenerator
  data : Bool
  deriving DecidableEq, Repr

/-- A packet of the action `state`; its data starts at `offset` in the buffer of the action. -/
structure DmaPacket where
  state : ℕ
  addr : ℕ
  size : ℕ
  offset : ℕ
  deriving DecidableEq, Repr

inductive Mode
  | timing
  | atomic
  /-- atomic mode with the caches bypassed -/
  | bypass
  deriving DecidableEq, Repr

/-- The contents of the memory and of the buffers of the actions. -/
structure Bytes where
  memory : ℕ → BitVec 8
  buffers : ℕ → ℕ → BitVec 8

/-- What the memory answers in atomic mode: a latency, and possibly a backdoor. -/
structure Memory where
  latency : DmaPacket → ℕ
  backdoor : DmaPacket → Option Backdoor

/-- The port, and what is outside: the packets that the memory has accepted, the memory and the
buffers of the actions.  An action is named by the position of its request.  `moved` logs the bytes
moved, and `scheduled` the completion events with their delays. -/
structure DmaPort where
  mode : Mode
  cacheLineSize : ℕ
  transmitList : List ℕ
  states : ℕ → Option DmaReqState
  sendEvent : Bool
  inRetry : Option DmaPacket
  pendingCount : ℕ
  memBackdoors : List Backdoor
  requests : List Request
  inFlight : List DmaPacket
  bytes : Bytes
  moved : List DmaPacket
  scheduled : List (ℕ × ℕ)

/-- The assertions, the use of a deleted `DmaReqState`, a copy from or to memory outside the backdoor,
and a loop that does not end. -/
inductive DmaFault
  | chunk (fault : ChunkFault)
  | tooManyBytes
  | notPending
  | nothingToSend
  | alreadyScheduled
  | deletedState
  | outsideBackdoor
  | endless
  deriving DecidableEq, Repr

namespace DmaPort

/-! ## Responses -/

/-- `DmaReqState::createPacket` -/
def createPacket (id : ℕ) (state : DmaReqState) : DmaPacket where
  state := id
  addr := state.gen.addr
  size := state.gen.size
  offset := state.gen.complete

def setState (p : DmaPort) (id : ℕ) (state : Option DmaReqState) : DmaPort :=
  { p with states := Function.update p.states id state }

theorem setState_self (p : DmaPort) (id : ℕ) (state : Option DmaReqState) :
    (p.setState id state).states id = state := Function.update_self _ _ _

/-- The state is deleted and the completion event, if any, scheduled. -/
def complete (p : DmaPort) (id : ℕ) (state : DmaReqState) (delay : ℕ) : DmaPort :=
  { p.setState id none with
    pendingCount := (p.pendingCount + 2 ^ 32 - 1) % 2 ^ 32
    scheduled := if state.completionEvent then p.scheduled ++ [(id, delay + state.delay)]
      else p.scheduled }

/-- `DmaPort::handleResp` -/
def handleResp (p : DmaPort) (id size delay : ℕ) : Except DmaFault DmaPort := do
  let state ← orFail .deletedState (p.states id)
  let numBytes := add64 state.numBytes size
  require .tooManyBytes (state.totBytes ≥ numBytes)
  if state.totBytes = numBytes then do
    require .notPending (p.pendingCount ≠ 0)
    return p.complete id state delay
  else return p.setState id (some { state with numBytes := numBytes })

/-- `memcpy` of `n` bytes. -/
def copyBytes (dst src : ℕ → BitVec 8) (dstAt srcAt n : ℕ) : ℕ → BitVec 8 :=
  fun a => if dstAt ≤ a ∧ a < dstAt + n then src (srcAt + (a - dstAt)) else dst a

/-- Bytes are moved between the memory and the buffer of the action, if it has one. -/
def Bytes.transfer (bytes : Bytes) (cmd : DmaCmd) (data : Bool) (m : DmaPacket) : Bytes :=
  if !data then bytes
  else
    match cmd with
    | .read =>
        { bytes with
          buffers := Function.update bytes.buffers m.state
            (copyBytes (bytes.buffers m.state) bytes.memory m.offset m.addr m.size) }
    | .write =>
        { bytes with
          memory := copyBytes bytes.memory (bytes.buffers m.state) m.addr m.offset m.size }

def transfer (p : DmaPort) (cmd : DmaCmd) (data : Bool) (m : DmaPacket) : DmaPort :=
  { p with
    moved := p.moved ++ [m]
    bytes := Bytes.transfer p.bytes cmd data m }

/-! ## Timing mode -/

/-- What `sendTimingReq` does with a packet: it may also be answered before the call returns. -/
inductive Answer
  | refused
  | accepted
  | answered
  deriving DecidableEq, Repr

/-- `DmaPort::recvTimingResp`, `DmaPort::handleRespPacket`: the packet is served. -/
def recvTimingResp (p : DmaPort) (pkt : DmaPacket) : Except DmaFault DmaPort := do
  let state ← orFail .deletedState (p.states pkt.state)
  (p.transfer state.cmd state.data pkt).handleResp pkt.state pkt.size 0

/-- An accepted packet is in flight, or answered at once. -/
def deliver (p : DmaPort) (pkt : DmaPacket) (answer : Answer) : Except DmaFault DmaPort :=
  match answer with
  | .answered => p.recvTimingResp pkt
  | _ => .ok { p with inFlight := p.inFlight ++ [pkt] }

/-- After a packet: the action leaves the list, or its generator moves on. -/
def advance (p : DmaPort) (id : ℕ) (last : Bool) : Except DmaFault DmaPort :=
  if last then .ok { p with transmitList := p.transmitList.tail }
  else do
    let state ← orFail .deletedState (p.states id)
    return p.setState id (some { state with gen := state.gen.next.2 })

def scheduleSend (p : DmaPort) : Except DmaFault DmaPort :=
  if p.transmitList.isEmpty then .ok p
  else do
    require .alreadyScheduled (!p.sendEvent)
    return { p with sendEvent := true }

/-- `DmaPort::trySendTimingReq` -/
def trySendTimingReq (p : DmaPort) (answer : Answer) : Except DmaFault DmaPort := do
  let id ← orFail .nothingToSend p.transmitList.head?
  let state ← orFail .deletedState (p.states id)
  let pkt := p.inRetry.getD (createPacket id state)
  if answer = .refused then return { p with inRetry := some pkt }
  else do
    let p ← { p with inRetry := none }.deliver pkt answer
    let p ← p.advance id state.gen.last
    p.scheduleSend

/-! ## Atomic mode -/

/-- `DmaPort::sendAtomicReq` -/
def sendAtomicReq (mem : Memory) (p : DmaPort) (id : ℕ) : Except DmaFault (Bool × DmaPort) := do
  let state ← orFail .deletedState (p.states id)
  let pkt := createPacket id state
  let p := p.transfer state.cmd state.data pkt
  let (more, gen) := state.gen.next
  let p ← (p.setState id (some { state with gen := gen })).handleResp id pkt.size
    (mem.latency pkt)
  return (!more, p)

/-- A new backdoor is recorded unless it overlaps one that is recorded. -/
def record (bds : List Backdoor) : Option Backdoor → List Backdoor
  | none => bds
  | some b => if bds.any fun c => b.start < c.stop && c.start < b.stop then bds else b :: bds

/-- `DmaPort::sendAtomicBdReq`.  Ranges that are recorded do not overlap, so that which one is found
matters for the last address only, and none of them holds that. -/
def sendAtomicBdReq (mem : Memory) (p : DmaPort) (id : ℕ) : Except DmaFault (Bool × DmaPort) := do
  let state ← orFail .deletedState (p.states id)
  match p.memBackdoors.find? (·.contains state.gen.addr) with
  | none => do
      let pkt := createPacket id state
      let p := p.transfer state.cmd state.data pkt
      let p := { p with memBackdoors := record p.memBackdoors (mem.backdoor pkt) }
      let (more, gen) := state.gen.next
      let p ← (p.setState id (some { state with gen := gen })).handleResp id pkt.size
        (mem.latency pkt)
      return (!more, p)
  | some bd => do
      let offset := sub64 state.gen.addr bd.start
      let remaining := sub64 state.totBytes state.gen.complete
      let available := sub64 (sub64 bd.stop bd.start) offset
      let handled := min remaining available
      require .outsideBackdoor (!state.data || state.gen.addr < bd.stop)
      let p := p.transfer state.cmd state.data
        ⟨id, add64 bd.start offset, handled, state.gen.complete⟩
      let gen ← (state.gen.setNext (add64 state.gen.addr handled)).mapError .chunk
      let (more, gen) := gen.next
      let p ← (p.setState id (some { state with gen := gen })).handleResp id handled 0
      return (!more, p)

/-- The loop over one action, with a bound on the number of rounds. -/
def sendAction (send : DmaPort → ℕ → Except DmaFault (Bool × DmaPort)) :
    ℕ → DmaPort → ℕ → Except DmaFault DmaPort
  | 0, _, _ => .error .endless
  | rounds + 1, p, id => do
      let (done, p) ← send p id
      if done then return p else sendAction send rounds p id

/-- One action from the transmit list; every round moves a byte at least. -/
def sendOne (send : DmaPort → ℕ → Except DmaFault (Bool × DmaPort)) (p : DmaPort) (id : ℕ) :
    Except DmaFault DmaPort := do
  let state ← orFail .deletedState (p.states id)
  if state.gen.done then return p else sendAction send state.totBytes p id

/-! ## The operations of the port -/

/-- `DmaPort::sendDma` -/
def sendDma (mem : Memory) (p : DmaPort) (answer : Answer) : Except DmaFault DmaPort := do
  require .nothingToSend (!p.transmitList.isEmpty)
  match p.mode with
  | .timing => if p.inRetry.isSome || p.sendEvent then return p else p.trySendTimingReq answer
  | .atomic => p.transmitList.foldlM (sendOne (sendAtomicReq mem)) { p with transmitList := [] }
  | .bypass => p.transmitList.foldlM (sendOne (sendAtomicBdReq mem)) { p with transmitList := [] }

/-- `DmaPort::ddioActionAdq`, which `dmaAction` and its siblings call. -/
def dmaAction (mem : Memory) (p : DmaPort) (r : Request) (answer : Answer) :
    Except DmaFault DmaPort := do
  let gen ← (ChunkGenerator.create r.addr r.size p.cacheLineSize).mapError .chunk
  let state : DmaReqState := ⟨r.cmd, r.event, r.size, 0, r.delay, gen, r.data⟩
  { p.setState p.requests.length (some state) with
    transmitList := p.transmitList ++ [p.requests.length]
    requests := p.requests ++ [r]
    pendingCount := (p.pendingCount + 1) % 2 ^ 32 }.sendDma mem answer

/-- The port of a new device. -/
def create (mode : Mode) (cacheLineSize : ℕ) (memBackdoors : List Backdoor)
    (bytes : Bytes) : DmaPort where
  mode := mode
  cacheLineSize := cacheLineSize
  transmitList := []
  states _ := none
  sendEvent := false
  inRetry := none
  pendingCount := 0
  memBackdoors := memBackdoors
  requests := []
  inFlight := []
  bytes := bytes
  moved := []
  scheduled := []

end DmaPort

end Gem5.Dma
