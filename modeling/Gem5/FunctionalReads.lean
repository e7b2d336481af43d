/-
# Functional reads of queued packets

Embedding of `Packet::trySatisfyFunctional` (`mem/packet.cc`) and of the two queues that walk their
packets with it, those of `PacketQueue` (`mem/packet_queue.cc`) and of the ports of `Bridge`
(`mem/bridge.cc`).  A functional read collects its bytes from the packets of a queue, the oldest
first, and a byte of a later packet replaces that of an earlier one.

The walk stops as soon as all bytes were found, so the packets behind the first ones that cover the
read never replace anything: the read sees the newest data exactly when they have nothing new
(`functional_read_newest`), and else an old byte (`stale_read`).
-/
import Gem5.AbstractMemory

namespace Gem5.Mem.Functional

open Runs

/-! ## Packets -/

/-- `Bytes` from `dst + dstAt` on are replaced by `n` bytes from `src + srcAt` on: `std::memcpy`. -/
def memcpy (dst : LockedMem.Bytes) (dstAt : ℕ) (src : LockedMem.Bytes) (srcAt n : ℕ) :
    LockedMem.Bytes :=
  fun i => if dstAt ≤ i ∧ i < dstAt + n then src (srcAt + (i - dstAt)) else dst i

/-- A packet with what a functional access looks at.  Its bytes are in the address space.  An empty
`bytesValid` is one without valid bytes. -/
structure Packet where
  cmd : MemCmd
  addr : ℕ
  size : ℕ
  isSecure : Bool
  /-- `req->getByteEnable()` -/
  byteEnable : List Bool := []
  data : LockedMem.Bytes
  bytesValid : ℕ → Bool := fun _ => false
  size_pos : 0 < size
  fits : addr + size ≤ 2 ^ 64

/-- What stops the simulator. -/
inductive Fault where
  /-- `assert(!_data)` of a print request -/
  | printOfData
  /-- `panic("Don't know how to handle command %s\n")` -/
  | unknownCommand
  /-- `assert(isRequest())` of `makeResponse` -/
  | notARequest
  deriving DecidableEq, Repr

namespace Packet

/-- `Packet::isMaskedWrite` -/
def isMaskedWrite (pkt : Packet) : Bool := pkt.cmd = .WriteReq && pkt.byteEnable.contains false

/-- `Packet::makeResponse` -/
def makeResponse (pkt : Packet) : Except Fault Packet :=
  if pkt.cmd.isRequest then .ok { pkt with cmd := pkt.cmd.responseCommand } else .error .notARequest

/-- `Packet::trySatisfyFunctional(obj, addr, is_secure, size, _data)`: whether the packet is
satisfied, the packet, and the data of the other. -/
def trySatisfyData (pkt : Packet) (addr : ℕ) (is_secure : Bool) (size : ℕ)
    (_data : Option LockedMem.Bytes) : Except Fault (Bool × Packet × Option LockedMem.Bytes) :=
  let func_start := pkt.addr
  let func_end := pkt.addr + pkt.size - 1
  let val_start := addr
  let val_end := val_start + size - 1
  if is_secure ≠ pkt.isSecure ∨ val_end < func_start ∨ func_end < val_start then
    .ok (false, pkt, _data)
  else if pkt.cmd.testCmdAttrib .IsPrint then
    if _data.isNone then .ok (false, pkt, _data) else .error .printOfData
  else match _data with
  | none => .ok (false, pkt, none)
  | some _data =>
      let val_offset := func_start - val_start
      let func_offset := val_start - func_start
      let overlap_size := min val_end func_end + 1 - max val_start func_start
      if pkt.cmd.isRead then
        let data := memcpy pkt.data func_offset _data val_offset overlap_size
        let bytesValid i :=
          pkt.bytesValid i || (func_offset ≤ i && i < func_offset + overlap_size)
        -- the bytes before the update, and those behind it
        let all_bytes_valid := (List.range func_offset).all pkt.bytesValid &&
          (List.range' (func_offset + overlap_size)
            (pkt.size - (func_offset + overlap_size))).all bytesValid
        .ok (all_bytes_valid, { pkt with data, bytesValid }, some _data)
      else if pkt.cmd.isWrite then
        .ok (false, pkt, some (memcpy _data val_offset pkt.data func_offset overlap_size))
      else .error .unknownCommand

/-- `Packet::trySatisfyFunctional(other)`: a masked write is skipped. -/
def trySatisfyFunctional (pkt other : Packet) : Except Fault (Bool × Packet × Packet) :=
  if other.isMaskedWrite then .ok (false, pkt, other)
  else do
    let (found, pkt, data) ← pkt.trySatisfyData other.addr other.isSecure other.size
      (if other.cmd.hasData then some other.data else none)
    return (found, pkt, { other with data := data.getD other.data })

end Packet

/-! ## Queues -/

/-- `DeferredPacket`; `enqueued` numbers the packets in the order in which they were enqueued, which
in a `PacketQueue` is not their order in the list. -/
structure DeferredPacket where
  tick : ℕ
  pkt : Packet
  enqueued : ℕ

/-- `PacketQueue::trySatisfyFunctional`: the walk stops at the packet that satisfies the access. -/
def PacketQueue.trySatisfyFunctional (pkt : Packet) :
    List DeferredPacket → Except Fault (Bool × Packet × List DeferredPacket)
  | [] => .ok (false, pkt, [])
  | i :: transmitList => do
      let (found, pkt, other) ← pkt.trySatisfyFunctional i.pkt
      if found then return (true, pkt, { i with pkt := other } :: transmitList)
      else
        let (found, pkt, rest) ← trySatisfyFunctional pkt transmitList
        return (found, pkt, { i with pkt := other } :: rest)

/-- `BridgeRequestPort::trySatisfyFunctional`, and the loop of `recvFunctional` over the responses:
an access that is satisfied is answered. -/
def Bridge.trySatisfyFunctional (pkt : Packet) :
    List DeferredPacket → Except Fault (Bool × Packet × List DeferredPacket)
  | [] => .ok (false, pkt, [])
  | i :: transmitList => do
      let (found, pkt, other) ← pkt.trySatisfyFunctional i.pkt
      if found then
        let pkt ← pkt.makeResponse
        return (true, pkt, { i with pkt := other } :: transmitList)
      else
        let (found, pkt, rest) ← trySatisfyFunctional pkt transmitList
        return (found, pkt, { i with pkt := other } :: rest)

/-- `BridgeResponsePort::recvFunctional` with the responses and the requests of the bridge, until
the access is forwarded if it was not satisfied. -/
def Bridge.recvFunctional (pkt : Packet) (responses requests : List DeferredPacket) :
    Except Fault (Bool × Packet × List DeferredPacket × List DeferredPacket) := do
  let (found, pkt, responses) ← trySatisfyFunctional pkt responses
  if found then return (true, pkt, responses, requests)
  else
    let (found, pkt, requests) ← trySatisfyFunctional pkt requests
    return (found, pkt, responses, requests)

/-! ## What a queue says about a byte -/

namespace Packet

/-- The byte of the packet at an address. -/
def byteAt (pkt : Packet) (b : ℕ) : UInt8 := pkt.data (b - pkt.addr)

/-- The address is one of the packet, as seen by an access to (non-)secure memory. -/
def Contains (pkt : Packet) (secure : Bool) (b : ℕ) : Prop :=
  pkt.isSecure = secure ∧ pkt.addr ≤ b ∧ b < pkt.addr + pkt.size

instance (pkt : Packet) (secure : Bool) (b : ℕ) : Decidable (pkt.Contains secure b) :=
  inferInstanceAs (Decidable (_ ∧ _))

/-- The byte that the packet holds for an address: a masked write has only the bytes that are
enabled. -/
def holds (pkt : Packet) (secure : Bool) (b : ℕ) : Option UInt8 :=
  if pkt.Contains secure b ∧ pkt.cmd.hasData ∧
      (pkt.isMaskedWrite = true → pkt.byteEnable.getD (b - pkt.addr) true) then
    some (pkt.byteAt b)
  else none

/-- The byte that `trySatisfyFunctional` takes from the packet. -/
def offers (pkt : Packet) (secure : Bool) (b : ℕ) : Option UInt8 :=
  if pkt.Contains secure b ∧ pkt.cmd.hasData ∧ pkt.isMaskedWrite = false then some (pkt.byteAt b)
  else none

variable {pkt pkt' other : Packet} {secure : Bool} {b : ℕ}

theorem holds_of_offers {v : UInt8} (h : pkt.offers secure b = some v) :
    pkt.holds secure b = some v := by
  unfold offers at h
  split at h
  next hb =>
    rw [holds, if_pos ⟨hb.1, hb.2.1, fun hm => absurd hm (hb.2.2 ▸ Bool.false_ne_true)⟩]
    exact h
  next => cases h

/-- A read that took the bytes that it was offered. -/
structure Collected (pkt : Packet) (offer : ℕ → Option UInt8) (pkt' : Packet) : Prop where
  cmd : pkt'.cmd = pkt.cmd
  addr : pkt'.addr = pkt.addr
  size : pkt'.size = pkt.size
  isSecure : pkt'.isSecure = pkt.isSecure
  valid : ∀ i, i < pkt.size →
    pkt'.bytesValid i = (pkt.bytesValid i || (offer (pkt.addr + i)).isSome)
  data : ∀ i, i < pkt.size → pkt'.data i = (offer (pkt.addr + i)).getD (pkt.data i)

/-- All bytes of a read were found. -/
def Complete (pkt : Packet) : Prop := ∀ i, i < pkt.size → pkt.bytesValid i = true

/-- A read that is offered nothing. -/
theorem collected_self {offer : ℕ → Option UInt8}
    (h : ∀ i, i < pkt.size → offer (pkt.addr + i) = none) : Collected pkt offer pkt := by
  refine ⟨rfl, rfl, rfl, rfl, fun i hi => ?_, fun i hi => ?_⟩
  · rw [h i hi]
    simp
  · rw [h i hi]
    rfl

/-- What is offered later replaces what was offered before. -/
theorem Collected.trans {offer offer' : ℕ → Option UInt8} {pkt'' : Packet}
    (h : Collected pkt offer pkt') (h' : Collected pkt' offer' pkt'') :
    Collected pkt (fun b => (offer' b).or (offer b)) pkt'' := by
  refine ⟨h'.cmd.trans h.cmd, h'.addr.trans h.addr, h'.size.trans h.size,
    h'.isSecure.trans h.isSecure, fun i hi => ?_, fun i hi => ?_⟩
  · rw [h'.valid i (h.size ▸ hi), h.valid i hi, h.addr, Option.isSome_or, Bool.or_assoc,
      Bool.or_comm (offer' _).isSome]
  · rw [h'.data i (h.size ▸ hi), h.data i hi, h.addr]
    cases offer' (pkt.addr + i) <;> rfl

theorem isPrint_of_isRead (h : pkt.cmd.isRead = true) :
    pkt.cmd.testCmdAttrib .IsPrint = false := by
  revert h
  cases pkt.cmd <;> decide

/-- The bytes that overlap another packet, by their place in the read and their address. -/
theorem overlap_iff {i : ℕ} (hi : i < pkt.size) (hmeet : ¬(other.addr + other.size - 1 < pkt.addr ∨
      pkt.addr + pkt.size - 1 < other.addr)) :
    (other.addr - pkt.addr ≤ i ∧ i < other.addr - pkt.addr +
      (min (other.addr + other.size - 1) (pkt.addr + pkt.size - 1) + 1 -
        max other.addr pkt.addr)) ↔
    other.addr ≤ pkt.addr + i ∧ pkt.addr + i < other.addr + other.size := by
  have hpos := pkt.size_pos
  have hpos' := other.size_pos
  omega

/-- The bytes of a packet with data that meets a read are copied, and marked valid. -/
theorem trySatisfyData_read (hread : pkt.cmd.isRead = true)
    (hsecure : other.isSecure = pkt.isSecure)
    (hmeet : ¬(other.addr + other.size - 1 < pkt.addr ∨ pkt.addr + pkt.size - 1 < other.addr))
    (hdata : other.cmd.hasData = true) (hmasked : other.isMaskedWrite = false) :
    ∃ found pkt', pkt.trySatisfyData other.addr other.isSecure other.size (some other.data) =
      .ok (found, pkt', some other.data) ∧ Collected pkt (other.offers pkt.isSecure) pkt' ∧
      (found = true ↔ pkt'.Complete) := by
  have hno : ¬(other.isSecure ≠ pkt.isSecure ∨ other.addr + other.size - 1 < pkt.addr ∨
      pkt.addr + pkt.size - 1 < other.addr) := fun h =>
    h.elim (fun hne => hne hsecure) hmeet
  have hoffers : ∀ i, i < pkt.size → other.offers pkt.isSecure (pkt.addr + i) =
      if other.addr ≤ pkt.addr + i ∧ pkt.addr + i < other.addr + other.size then
        some (other.data (pkt.addr + i - other.addr)) else none := fun i _ => by
    simp [offers, Contains, hsecure, hdata, hmasked, byteAt]
  unfold trySatisfyData
  simp only
  rw [if_neg hno, if_neg (by simp [isPrint_of_isRead hread]), if_pos hread]
  refine ⟨_, _, rfl, ⟨rfl, rfl, rfl, rfl, fun i hi => ?_, fun i hi => ?_⟩, ?_⟩
  · rw [hoffers i hi]
    dsimp only
    rw [← Bool.decide_and, decide_eq_decide.mpr (overlap_iff hi hmeet)]
    split
    next hin => rw [decide_eq_true hin, Option.isSome_some]
    next hin => rw [decide_eq_false hin, Option.isSome_none]
  · have hiff := overlap_iff hi hmeet
    rw [hoffers i hi]
    split
    next hin =>
      have hat : pkt.addr - other.addr + (i - (other.addr - pkt.addr)) =
          pkt.addr + i - other.addr := by
        omega
      exact (if_pos (hiff.mpr hin)).trans (congrArg other.data hat)
    next hin => exact if_neg (mt hiff.mp hin)
  · -- the loops look at all bytes but those that were copied
    simp only [Bool.and_eq_true, List.all_eq_true, List.mem_range, List.mem_range'_1, Complete]
    constructor
    · rintro ⟨hbefore, hbehind⟩ i hi
      by_cases hlow : i < other.addr - pkt.addr
      · rw [hbefore i hlow, Bool.true_or]
      · by_cases hin : i < other.addr - pkt.addr +
            (min (other.addr + other.size - 1) (pkt.addr + pkt.size - 1) + 1 -
              max other.addr pkt.addr)
        · simp [Nat.le_of_not_lt hlow, hin]
        · exact hbehind i (by omega)
    · intro hall
      have hpos := other.size_pos
      refine ⟨fun i hi => ?_, fun i hi => hall i (by omega)⟩
      have hi' := hall i (by omega)
      simpa [Nat.not_le_of_lt hi] using hi'

/-- A packet that the walk passes by offers nothing. -/
theorem offers_eq_none (h : other.isSecure ≠ pkt.isSecure ∨ other.addr + other.size - 1 < pkt.addr ∨
      pkt.addr + pkt.size - 1 < other.addr) {i : ℕ} (hi : i < pkt.size) :
    other.offers pkt.isSecure (pkt.addr + i) = none := by
  refine if_neg fun hin => ?_
  obtain ⟨hsecure, hle, hlt⟩ := hin.1
  have hpos := pkt.size_pos
  rcases h with hne | h | h
  · exact hne hsecure
  · omega
  · omega

/-- **One packet of a queue**: a read that is not complete takes the bytes that the packet offers,
and is satisfied when it is complete then. -/
theorem trySatisfyFunctional_read (other : Packet) (hread : pkt.cmd.isRead = true)
    (hopen : ¬pkt.Complete) : ∃ found pkt',
      pkt.trySatisfyFunctional other = .ok (found, pkt', other) ∧
      Collected pkt (other.offers pkt.isSecure) pkt' ∧ (found = true ↔ pkt'.Complete) := by
  have hnothing : (false = true ↔ pkt.Complete) := by simp [hopen]
  unfold trySatisfyFunctional
  split
  next hmasked =>
    refine ⟨false, pkt, rfl, collected_self fun i hi => ?_, hnothing⟩
    simp [offers, hmasked]
  next hmasked =>
    rw [Bool.not_eq_true] at hmasked
    by_cases hno : other.isSecure ≠ pkt.isSecure ∨ other.addr + other.size - 1 < pkt.addr ∨
        pkt.addr + pkt.size - 1 < other.addr
    · refine ⟨false, pkt, ?_, collected_self fun i hi => offers_eq_none hno hi, hnothing⟩
      simp only [trySatisfyData, if_pos hno]
      cases other.cmd.hasData <;> rfl
    · cases hdata : other.cmd.hasData with
      | false =>
        refine ⟨false, pkt, ?_, collected_self fun i hi => ?_, hnothing⟩
        · simp only [trySatisfyData, if_neg hno, isPrint_of_isRead hread]
          rfl
        · simp [offers, hdata]
      | true =>
        have hmeet := not_or.mp hno
        obtain ⟨found, pkt', hrun, hcollected, hfound⟩ :=
          trySatisfyData_read hread (not_not.mp hmeet.1) hmeet.2 hdata hmasked
        refine ⟨found, pkt', ?_, hcollected, hfound⟩
        rw [if_pos rfl, hrun]
        rfl

end Packet

/-! ## Walks -/

/-- The byte that the last packet of a list offers for an address. -/
def lastOffer (secure : Bool) (q : List DeferredPacket) (b : ℕ) : Option UInt8 :=
  q.reverse.findSome? fun d => d.pkt.offers secure b

variable {pkt pkt' : Packet} {q : List DeferredPacket}

theorem lastOffer_cons (secure : Bool) (d : DeferredPacket) (q : List DeferredPacket) :
    lastOffer secure (d :: q) = fun b => (lastOffer secure q b).or (d.pkt.offers secure b) := by
  funext b
  rw [lastOffer, List.reverse_cons, List.findSome?_append]
  simp [lastOffer]

/-- The bytes of a read that were not found are among those that the packets offer. -/
def FoundIn (pkt : Packet) (q : List DeferredPacket) : Prop :=
  ∀ i, i < pkt.size →
    (pkt.bytesValid i || (lastOffer pkt.isSecure q (pkt.addr + i)).isSome) = true

theorem foundIn_nil : FoundIn pkt [] ↔ pkt.Complete := by
  simp [FoundIn, Packet.Complete, lastOffer]

theorem Packet.Collected.foundIn_cons {d : DeferredPacket}
    (h : pkt.Collected (d.pkt.offers pkt.isSecure) pkt') :
    FoundIn pkt (d :: q) ↔ FoundIn pkt' q := by
  refine ⟨fun hall i hi => ?_, fun hall i hi => ?_⟩
  · rw [h.size] at hi
    have hi' := hall i hi
    rw [lastOffer_cons, Option.isSome_or] at hi'
    rw [h.valid i hi, h.isSecure, h.addr, Bool.or_assoc, Bool.or_comm (d.pkt.offers _ _).isSome]
    exact hi'
  · have hi' := hall i (h.size ▸ hi)
    rw [h.valid i hi, h.isSecure, h.addr, Bool.or_assoc, Bool.or_comm (d.pkt.offers _ _).isSome]
      at hi'
    rw [lastOffer_cons, Option.isSome_or]
    exact hi'

/-- What a walk does for a read: it takes the bytes of the first `n` packets, and these are the
fewest that have them all if the read is satisfied. -/
def Walked (pkt : Packet) (q : List DeferredPacket) (found : Bool) (pkt' : Packet) : Prop :=
  ∃ n, n ≤ q.length ∧ pkt.Collected (lastOffer pkt.isSecure (q.take n)) pkt' ∧
    (∀ m, m < n → ¬FoundIn pkt (q.take m)) ∧ (found = true → FoundIn pkt (q.take n)) ∧
    (found = false → n = q.length ∧ ¬FoundIn pkt q)

/-- **The walk of a `PacketQueue`.** -/
theorem PacketQueue.trySatisfyFunctional_read (hread : pkt.cmd.isRead = true)
    (hopen : ¬pkt.Complete) : ∃ found pkt',
      PacketQueue.trySatisfyFunctional pkt q = .ok (found, pkt', q) ∧ Walked pkt q found pkt' := by
  induction q generalizing pkt with
  | nil =>
    refine ⟨false, pkt, rfl, 0, Nat.le_refl 0, Packet.collected_self fun _ _ => rfl, nofun, nofun,
      fun _ => ⟨rfl, fun h => hopen (foundIn_nil.mp h)⟩⟩
  | cons d q ih =>
    obtain ⟨found, pkt₁, hrun, hcollected, hfound⟩ :=
      Packet.trySatisfyFunctional_read d.pkt hread hopen
    have hcons : ∀ t, FoundIn pkt (d :: t) ↔ FoundIn pkt₁ t := fun t => hcollected.foundIn_cons
    have hempty : ¬FoundIn pkt [] := fun h => hopen (foundIn_nil.mp h)
    cases found with
    | true =>
      refine ⟨true, pkt₁, ?_, 1, by simp, ?_, fun m hm => ?_, fun _ => ?_, nofun⟩
      · rw [trySatisfyFunctional, hrun]
        rfl
      · rw [List.take_succ_cons, List.take_zero, lastOffer_cons]
        simpa [lastOffer] using hcollected
      · rw [Nat.lt_one_iff.mp hm]
        exact hempty
      · rw [List.take_succ_cons, List.take_zero, hcons, foundIn_nil]
        exact hfound.mp rfl
    | false =>
      have hopen₁ : ¬pkt₁.Complete := fun h => absurd (hfound.mpr h) Bool.false_ne_true
      obtain ⟨found, pkt', hrest, n, hn, hcollected', hleast, htrue, hfalse⟩ :=
        ih (hcollected.cmd ▸ hread) hopen₁
      refine ⟨found, pkt', ?_, n + 1, Nat.succ_le_succ hn, ?_, fun m hm => ?_, fun h => ?_,
        fun h => ?_⟩
      · rw [trySatisfyFunctional, hrun]
        show (trySatisfyFunctional pkt₁ q >>= _) = _
        rw [hrest]
        rfl
      · rw [List.take_succ_cons, lastOffer_cons]
        rw [hcollected.isSecure] at hcollected'
        exact hcollected.trans hcollected'
      · cases m with
        | zero => exact hempty
        | succ m =>
          rw [List.take_succ_cons, hcons]
          exact hleast m (Nat.lt_of_succ_lt_succ hm)
      · rw [List.take_succ_cons, hcons]
        exact htrue h
      · rw [hcons]
        exact ⟨congrArg Nat.succ (hfalse h).1, (hfalse h).2⟩

/-- The walk of a port of the bridge is that of a `PacketQueue`, and answers the access. -/
theorem Bridge.trySatisfyFunctional_eq (pkt : Packet) (q : List DeferredPacket) :
    Bridge.trySatisfyFunctional pkt q = (do
      let (found, pkt, q) ← PacketQueue.trySatisfyFunctional pkt q
      if found then
        let pkt ← pkt.makeResponse
        return (true, pkt, q)
      else return (false, pkt, q)) := by
  induction q generalizing pkt with
  | nil => rfl
  | cons d q ih =>
    rw [Bridge.trySatisfyFunctional, PacketQueue.trySatisfyFunctional]
    cases pkt.trySatisfyFunctional d.pkt with
    | error e => rfl
    | ok r =>
      obtain ⟨found, pkt₁, other⟩ := r
      cases found with
      | true => rfl
      | false =>
        show (Bridge.trySatisfyFunctional pkt₁ q >>= _) =
          ((PacketQueue.trySatisfyFunctional pkt₁ q >>= _) >>= _)
        rw [ih]
        cases PacketQueue.trySatisfyFunctional pkt₁ q with
        | error e => rfl
        | ok r =>
          obtain ⟨found, pkt₂, q'⟩ := r
          cases found with
          | false => rfl
          | true =>
            show (pkt₂.makeResponse >>= _) >>= _ = pkt₂.makeResponse >>= _
            cases pkt₂.makeResponse <;> rfl

/-- The bridge looks at its responses and then at its requests, as if they were one list. -/
theorem Bridge.recvFunctional_eq (pkt : Packet) (responses requests : List DeferredPacket) :
    (Bridge.recvFunctional pkt responses requests).map
        (fun (found, pkt, responses, requests) => (found, pkt, responses ++ requests)) =
      Bridge.trySatisfyFunctional pkt (responses ++ requests) := by
  induction responses generalizing pkt with
  | nil =>
    rw [List.nil_append]
    show (Bridge.trySatisfyFunctional pkt requests >>= _).map _ = _
    cases Bridge.trySatisfyFunctional pkt requests <;> rfl
  | cons d responses ih =>
    rw [Bridge.recvFunctional, List.cons_append, Bridge.trySatisfyFunctional,
      Bridge.trySatisfyFunctional]
    cases pkt.trySatisfyFunctional d.pkt with
    | error e => rfl
    | ok r =>
      obtain ⟨found, pkt₁, other⟩ := r
      cases found with
      | true =>
        show ((pkt₁.makeResponse >>= _) >>= _).map _ = pkt₁.makeResponse >>= _
        cases pkt₁.makeResponse <;> rfl
      | false =>
        show ((Bridge.trySatisfyFunctional pkt₁ responses >>= _) >>= _).map _ =
          Bridge.trySatisfyFunctional pkt₁ (responses ++ requests) >>= _
        rw [← ih, Bridge.recvFunctional]
        cases Bridge.trySatisfyFunctional pkt₁ responses with
        | error e => rfl
        | ok r =>
          obtain ⟨found, pkt₂, responses'⟩ := r
          cases found with
          | true => rfl
          | false =>
            show (Bridge.trySatisfyFunctional pkt₂ requests >>= _).map _ =
              (Bridge.trySatisfyFunctional pkt₂ requests >>= _).map _ >>= _
            cases Bridge.trySatisfyFunctional pkt₂ requests <;> rfl

/-! ## The newest data -/

/-- The newest of the packets that hold a byte holds this one. -/
def NewestAt (secure : Bool) (q : List DeferredPacket) (b : ℕ) (v : UInt8) : Prop :=
  ∃ d ∈ q, d.pkt.holds secure b = some v ∧
    ∀ e ∈ q, (e.pkt.holds secure b).isSome → e.enqueued ≤ d.enqueued

/-- What a satisfied read returns is what is newest in the queue. -/
structure SeesNewest (q : List DeferredPacket) (pkt pkt' : Packet) : Prop where
  covered : ∀ i, i < pkt.size → ∃ d ∈ q, (d.pkt.holds pkt.isSecure (pkt.addr + i)).isSome
  newest : ∀ i, i < pkt.size → ∀ v, NewestAt pkt.isSecure q (pkt.addr + i) v → pkt'.data i = v

/-- The packets of a queue offer all bytes of a read. -/
def Covers (q : List DeferredPacket) (pkt : Packet) : Prop :=
  ∀ i, i < pkt.size → (lastOffer pkt.isSecure q (pkt.addr + i)).isSome

/-- **Nothing newer is queued**: the fewest packets at the front of the list that cover the read
offer the newest bytes. -/
def NothingNewer (q : List DeferredPacket) (pkt : Packet) : Prop :=
  ∀ n, n ≤ q.length → Covers (q.take n) pkt → (∀ m, m < n → ¬Covers (q.take m) pkt) →
    ∀ i, i < pkt.size → ∀ v, NewestAt pkt.isSecure q (pkt.addr + i) v →
      lastOffer pkt.isSecure (q.take n) (pkt.addr + i) = some v

theorem foundIn_iff_covers (hfresh : pkt.bytesValid = fun _ => false) :
    FoundIn pkt q ↔ Covers q pkt := by
  simp only [FoundIn, Covers, hfresh, Bool.false_or]

theorem exists_holds_of_lastOffer {secure : Bool} {b : ℕ}
    (h : (lastOffer secure q b).isSome) : ∃ d ∈ q, (d.pkt.holds secure b).isSome := by
  rw [lastOffer, List.findSome?_isSome_iff] at h
  obtain ⟨d, hd, hoffers⟩ := h
  obtain ⟨v, hv⟩ := Option.isSome_iff_exists.mp hoffers
  exact ⟨d, List.mem_reverse.mp hd, by rw [Packet.holds_of_offers hv]; rfl⟩

/-- A satisfied read sees the newest data exactly when nothing newer is queued. -/
theorem Walked.seesNewest_iff (hfresh : pkt.bytesValid = fun _ => false)
    (h : Walked pkt q true pkt') : SeesNewest q pkt pkt' ↔ NothingNewer q pkt := by
  obtain ⟨n, hn, hcollected, hleast, htrue, -⟩ := h
  simp only [foundIn_iff_covers hfresh] at hleast
  have hcovers := (foundIn_iff_covers hfresh).mp (htrue rfl)
  have hdata : ∀ i, i < pkt.size →
      lastOffer pkt.isSecure (q.take n) (pkt.addr + i) = some (pkt'.data i) := fun i hi => by
    obtain ⟨v, hv⟩ := Option.isSome_iff_exists.mp (hcovers i hi)
    rw [hcollected.data i hi, hv]
    rfl
  constructor
  · intro hnewest m hm hcovers' hleast' i hi v hv
    have hmn : m = n := by
      rcases Nat.lt_trichotomy m n with hlt | heq | hgt
      · exact absurd hcovers' (hleast m hlt)
      · exact heq
      · exact absurd hcovers (hleast' n hgt)
    rw [hmn, hdata i hi, hnewest.newest i hi v hv]
  · intro hnothing
    refine ⟨fun i hi => ?_, fun i hi v hv => ?_⟩
    · obtain ⟨d, hd, hholds⟩ := exists_holds_of_lastOffer (hcovers i hi)
      exact ⟨d, List.mem_of_mem_take hd, hholds⟩
    · have hv' := hnothing n hn hcovers hleast i hi v hv
      rw [hdata i hi, Option.some.injEq] at hv'
      exact hv'

/-- A read that is not satisfied is not covered. -/
theorem Walked.nothingNewer (hfresh : pkt.bytesValid = fun _ => false)
    (h : Walked pkt q false pkt') : NothingNewer q pkt := by
  obtain ⟨n, hn, -, hleast, -, hfalse⟩ := h
  obtain ⟨rfl, hnot⟩ := hfalse rfl
  rw [foundIn_iff_covers hfresh] at hnot
  simp only [foundIn_iff_covers hfresh] at hleast
  intro m hm hcovers
  rcases Nat.lt_or_ge m q.length with hlt | hge
  · exact absurd hcovers (hleast m hlt)
  · rw [List.take_of_length_le hge] at hcovers
    exact absurd hcovers hnot

theorem not_complete (hfresh : pkt.bytesValid = fun _ => false) : ¬pkt.Complete := fun h => by
  have hzero := h 0 pkt.size_pos
  rw [hfresh] at hzero
  cases hzero

/-- The walk of a `PacketQueue`. -/
theorem packetQueue_seesNewest_iff (q : List DeferredPacket) (hread : pkt.cmd.isRead = true)
    (hfresh : pkt.bytesValid = fun _ => false) :
    (∀ pkt' q', PacketQueue.trySatisfyFunctional pkt q = .ok (true, pkt', q') →
      SeesNewest q pkt pkt') ↔ NothingNewer q pkt := by
  obtain ⟨found, pkt₁, hrun, hwalked⟩ :=
    PacketQueue.trySatisfyFunctional_read (q := q) hread (not_complete hfresh)
  rw [hrun]
  cases found with
  | false => exact ⟨fun _ => hwalked.nothingNewer hfresh, fun _ _ _ h => nomatch h⟩
  | true =>
    rw [← hwalked.seesNewest_iff hfresh]
    refine ⟨fun h => h pkt₁ q rfl, fun h pkt' q' heq => ?_⟩
    cases heq
    exact h

/-- The walk of a port of the bridge, which answers the read. -/
theorem bridge_seesNewest_iff (q : List DeferredPacket) (hread : pkt.cmd.isRead = true)
    (hrequest : pkt.cmd.isRequest = true) (hfresh : pkt.bytesValid = fun _ => false) :
    (∀ pkt' q', Bridge.trySatisfyFunctional pkt q = .ok (true, pkt', q') →
      SeesNewest q pkt pkt') ↔ NothingNewer q pkt := by
  obtain ⟨found, pkt₁, hrun, hwalked⟩ :=
    PacketQueue.trySatisfyFunctional_read (q := q) hread (not_complete hfresh)
  rw [Bridge.trySatisfyFunctional_eq, hrun]
  cases found with
  | false => exact ⟨fun _ => hwalked.nothingNewer hfresh, fun _ _ _ h => nomatch h⟩
  | true =>
    have hcmd : pkt₁.cmd = pkt.cmd := by
      obtain ⟨n, -, hcollected, -⟩ := hwalked
      exact hcollected.cmd
    have hresponse : pkt₁.makeResponse = .ok { pkt₁ with cmd := pkt₁.cmd.responseCommand } :=
      if_pos (hcmd ▸ hrequest)
    have hanswer : (do
        let pkt ← pkt₁.makeResponse
        return (true, pkt, q) : Except Fault (Bool × Packet × List DeferredPacket)) =
          .ok (true, { pkt₁ with cmd := pkt₁.cmd.responseCommand }, q) := by
      rw [hresponse]
      rfl
    rw [← hwalked.seesNewest_iff hfresh]
    refine ⟨fun h => ?_, fun h pkt' q' heq => ?_⟩
    · obtain ⟨hcovered, hnewest⟩ := h _ q hanswer
      exact ⟨hcovered, hnewest⟩
    · cases hanswer.symm.trans heq
      exact ⟨h.covered, h.newest⟩

/-- **Functional reads of queued packets.**  A functional read that a `PacketQueue`, a port of the
bridge or the bridge as a whole reports satisfied is covered by the packets that are queued, and
each of its bytes is that of the packet enqueued last among those that hold it, exactly when the
fewest packets at the front that cover the read have nothing newer behind them. -/
theorem functional_read_newest (q responses requests : List DeferredPacket) {pkt : Packet}
    (hread : pkt.cmd.isRead = true) (hrequest : pkt.cmd.isRequest = true)
    (hfresh : pkt.bytesValid = fun _ => false) :
    ((∀ pkt' q', PacketQueue.trySatisfyFunctional pkt q = .ok (true, pkt', q') →
      SeesNewest q pkt pkt') ↔ NothingNewer q pkt) ∧
    ((∀ pkt' q', Bridge.trySatisfyFunctional pkt q = .ok (true, pkt', q') →
      SeesNewest q pkt pkt') ↔ NothingNewer q pkt) ∧
    ((∀ pkt' responses' requests', Bridge.recvFunctional pkt responses requests =
        .ok (true, pkt', responses', requests') → SeesNewest (responses ++ requests) pkt pkt') ↔
      NothingNewer (responses ++ requests) pkt) := by
  refine ⟨packetQueue_seesNewest_iff q hread hfresh,
    bridge_seesNewest_iff q hread hrequest hfresh, ?_⟩
  rw [← bridge_seesNewest_iff (responses ++ requests) hread hrequest hfresh,
    ← Bridge.recvFunctional_eq]
  cases Bridge.recvFunctional pkt responses requests with
  | error e => exact ⟨fun _ _ _ h => (nomatch h), fun _ _ _ _ h => (nomatch h)⟩
  | ok r =>
      obtain ⟨found, pkt₁, responses₁, requests₁⟩ := r
      refine ⟨fun h pkt' q' heq => ?_, fun h pkt' responses' requests' heq => ?_⟩
      · cases heq
        exact h _ _ _ rfl
      · cases heq
        exact h _ _ rfl

/-- A write of the byte `v` to address 0. -/
def writeByte (v : UInt8) (enqueued : ℕ) : DeferredPacket :=
  ⟨0, { cmd := .WriteReq, addr := 0, size := 1, isSecure := false, data := fun _ => v,
        size_pos := by decide, fits := by decide }, enqueued⟩

/-- A read of the byte at address 0. -/
def readByte : Packet :=
  { cmd := .ReadReq, addr := 0, size := 1, isSecure := false, data := fun _ => 0,
    size_pos := by decide, fits := by decide }

/-- **A read of an old byte**: the first of two writes satisfies the read. -/
theorem stale_read : ¬∀ pkt' q',
    PacketQueue.trySatisfyFunctional readByte [writeByte 1 0, writeByte 2 1] =
      .ok (true, pkt', q') → SeesNewest [writeByte 1 0, writeByte 2 1] readByte pkt' := by
  intro h
  obtain ⟨r, hrun, htrue, hold⟩ : ∃ r,
      PacketQueue.trySatisfyFunctional readByte [writeByte 1 0, writeByte 2 1] = .ok r ∧
        r.1 = true ∧ r.2.1.data 0 = 1 := by
    decide +kernel
  have hnewest : NewestAt false [writeByte 1 0, writeByte 2 1] 0 2 :=
    ⟨writeByte 2 1, by simp, by decide, by simp [writeByte]⟩
  obtain ⟨found, pkt', q'⟩ := r
  cases htrue
  have hnew : pkt'.data 0 = 2 := (h pkt' q' hrun).newest 0 (by decide) 2 hnewest
  exact absurd (hold.symm.trans hnew) (by decide)

/-- An access to `n % 8 + 1` bytes at `i % 8`. -/
def accessOf (cmd : MemCmd) (i n : ℕ) (v : UInt8) : Packet :=
  { cmd := cmd, addr := i % 8, size := n % 8 + 1, isSecure := false, data := fun _ => v,
    size_pos := Nat.succ_pos _, fits := by omega }

/-- Two writes that overlap at address 1, and one elsewhere. -/
def overlapping : List DeferredPacket :=
  [⟨0, accessOf .WriteReq 0 1 1, 0⟩, ⟨0, accessOf .WriteReq 1 1 2, 1⟩,
    ⟨0, accessOf .WriteReq 6 1 3, 2⟩]

/-- A read of the first three bytes. -/
def readBytes : Packet := accessOf .ReadReq 0 2 0

instance (q : List DeferredPacket) (pkt : Packet) : Decidable (Covers q pkt) :=
  inferInstanceAs (Decidable (∀ i, i < pkt.size → _))

/-- A read of three bytes takes the newer byte where the writes overlap. -/
theorem functional_read_newest_overlapping :
    ∃ pkt' q', PacketQueue.trySatisfyFunctional readBytes overlapping = .ok (true, pkt', q') ∧
      (List.range 3).map pkt'.data = [1, 2, 2] ∧ SeesNewest overlapping readBytes pkt' := by
  refine ⟨_, _, rfl, by decide +kernel,
    (functional_read_newest overlapping [] [] (by decide) (by decide) rfl).1.mpr ?_ _ _ rfl⟩
  intro n hn hcovers hfewest i hi v hv
  obtain rfl : n = 2 := by
    have htwo : Covers (overlapping.take 2) readBytes := by decide +kernel
    have hone : ∀ m < 2, ¬Covers (overlapping.take m) readBytes := by decide +kernel
    rcases Nat.lt_trichotomy n 2 with hlt | heq | hgt
    · exact absurd hcovers (hone n hlt)
    · exact heq
    · exact absurd htwo (hfewest 2 hgt)
  have hnewest : ∀ i < 3, ∀ d ∈ overlapping, (d.pkt.holds false (0 + i)).isSome →
      (∀ e ∈ overlapping, (e.pkt.holds false (0 + i)).isSome → e.enqueued ≤ d.enqueued) →
        lastOffer false (overlapping.take 2) (0 + i) = d.pkt.holds false (0 + i) := by
    decide +kernel
  obtain ⟨d, hd, hholds, hlast⟩ := hv
  exact (hnewest i hi d hd (Option.isSome_of_eq_some hholds) hlast).trans hholds

end Gem5.Mem.Functional
