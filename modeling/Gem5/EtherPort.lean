/-
# Output ports of an Ethernet switch

Embedding of `EtherSwitch::Interface` and its `PortFifo` (`dev/net/etherswitch.cc`,
`dev/net/etherswitch.hh`).  The packets of a port are kept in an ordered set, by the tick at which
they were received and the port from which they came, and a count of their bytes beside it.  Packets
beyond the capacity are dropped from the end.  An event sends the first packet after a delay.

A second packet from the same port in the same tick is not inserted in the set, but counted.
Without such packets, and without packets that are longer than the capacity and come first, the
count is right and the packets leave in order (`packets_in_order`).
-/
import Gem5.Runs

namespace Gem5.EtherSwitch

open Runs

/-! ## Packets -/

/-- `networking::EthAddr` -/
structure EthAddr where
  data : Vector (BitVec 8) 6
  deriving DecidableEq, Repr

/-- A packet with the addresses at its start; `id` stands for the pointer. -/
structure EthPacket where
  id : ℕ
  dst : EthAddr
  src : EthAddr
  length : ℕ
  deriving DecidableEq, Repr

structure PortFifoEntry where
  packet : EthPacket
  recvTick : ℕ
  srcId : ℕ
  deriving DecidableEq, Repr

/-- `EntryOrder` -/
def entryOrder (lhs rhs : PortFifoEntry) : Bool :=
  if lhs.recvTick == rhs.recvTick then lhs.srcId < rhs.srcId else lhs.recvTick < rhs.recvTick

/-! ## The FIFO of a port -/

/-- `PortFifo`; the set is the list of its entries in order.  `dropped` logs the entries that were
dropped, each with the bytes that were stored then. -/
structure PortFifo where
  fifo : List PortFifoEntry
  maxSize : ℕ
  size : ℕ
  dropped : List (PortFifoEntry × ℕ)
  deriving DecidableEq, Repr

/-- The assertions, and accesses to the first or last entry of an empty set. -/
inductive PortFault
  | noLength
  | sizeTooSmall
  | nothingToSend
  | alreadyScheduled
  | emptySet
  deriving DecidableEq, Repr

def totalLength (entries : List PortFifoEntry) : ℕ := (entries.map (·.packet.length)).sum

namespace PortFifo

/-- `avail`: a difference of unsigned values, as an `int`. -/
def avail (f : PortFifo) : ℤ := Int.bmod ((f.maxSize : ℤ) - f.size) (2 ^ 32)

def empty (f : PortFifo) : Bool := f.size == 0

def front (f : PortFifo) : Except PortFault PortFifoEntry := orFail .emptySet f.fifo.head?

/-- Insertion in the ordered set: nothing is done where an entry of the same rank is there. -/
def emplace (e : PortFifoEntry) : List PortFifoEntry → List PortFifoEntry
  | [] => [e]
  | x :: xs =>
      if entryOrder e x then e :: x :: xs
      else if entryOrder x e then x :: emplace e xs
      else x :: xs

/-- The loop that drops packets from the end, with a round at most for every entry. -/
def trim : ℕ → PortFifo → Except PortFault PortFifo
  | 0, f => if 0 ≤ f.avail then .ok f else .error .emptySet
  | rounds + 1, f =>
      if 0 ≤ f.avail then .ok f
      else
        match f.fifo.getLast? with
        | none => .error .emptySet
        | some e =>
            trim rounds { f with
              size := (f.size + 2 ^ 32 - e.packet.length) % 2 ^ 32
              fifo := f.fifo.dropLast
              dropped := f.dropped ++ [(e, totalLength f.fifo)] }

/-- `PortFifo::push` at the tick `now`; the answer says whether the packet is at the head. -/
def push (f : PortFifo) (ptr : EthPacket) (senderId now : ℕ) :
    Except PortFault (Bool × PortFifo) := do
  require .noLength (ptr.length ≠ 0)
  let fifo := emplace ⟨ptr, now, senderId⟩ f.fifo
  let f ← trim fifo.length { f with size := (f.size + ptr.length) % 2 ^ 32, fifo := fifo }
  if f.empty then return (false, f)
  else do
    let head ← f.front
    return (head.packet.id == ptr.id, f)

/-- `PortFifo::pop` -/
def pop (f : PortFifo) : Except PortFault PortFifo :=
  if f.empty then .ok f
  else do
    let head ← f.front
    require .sizeTooSmall (f.size ≥ head.packet.length)
    return { f with
      size := f.size - head.packet.length
      fifo := f.fifo.tail }

end PortFifo

/-! ## The port -/

/-- The port, with the tick of its transmit event and logs of the packets. -/
structure Interface where
  outputFifo : PortFifo
  txEvent : Option ℕ
  now : ℕ
  pushed : List PortFifoEntry
  sent : List PortFifoEntry
  deriving DecidableEq, Repr

namespace Interface

/-- A packet is put in the queue at a tick, or the transmit event comes and the link takes the
packet or not.  `delay` is what `switchingDelay`, or the wait for a retry, amounts to. -/
inductive Action
  | enqueue (packet : EthPacket) (senderId tick delay : ℕ)
  | transmit (sent : Bool) (delay : ℕ)
  deriving DecidableEq, Repr

/-- `Interface::enqueue` -/
def enqueue (s : Interface) (packet : EthPacket) (senderId tick delay : ℕ) :
    Except PortFault Interface := do
  let (first, fifo) ← s.outputFifo.push packet senderId tick
  let s := { s with
    outputFifo := fifo
    now := tick
    pushed := s.pushed ++ [⟨packet, tick, senderId⟩] }
  if first then do
    let _ ← fifo.front
    return { s with txEvent := some (tick + delay) }
  else return s

/-- `Interface::transmit`, at the tick `now`. -/
def transmit (s : Interface) (sent : Bool) (delay : ℕ) : Except PortFault Interface := do
  require .nothingToSend (!s.outputFifo.empty)
  let head ← s.outputFifo.front
  if sent then do
    let fifo ← s.outputFifo.pop
    let s := { s with outputFifo := fifo, sent := s.sent ++ [head] }
    if fifo.empty then return s
    else do
      let _ ← fifo.front
      require .alreadyScheduled s.txEvent.isNone
      return { s with txEvent := some (s.now + delay) }
  else return if s.txEvent.isSome then s else { s with txEvent := some (s.now + delay) }

def step (s : Interface) : Action → Except PortFault Interface
  | .enqueue packet senderId tick delay => s.enqueue packet senderId tick delay
  | .transmit sent delay =>
      match s.txEvent with
      | some tick => { s with txEvent := none, now := tick }.transmit sent delay
      | none => .ok s

def new (maxSize : ℕ) : Interface where
  outputFifo := ⟨[], maxSize, 0, []⟩
  txEvent := none
  now := 0
  pushed := []
  sent := []

end Interface

/-! ## The order of the entries -/

theorem entryOrder_iff {a b : PortFifoEntry} :
    entryOrder a b = true ↔
      a.recvTick < b.recvTick ∨ a.recvTick = b.recvTick ∧ a.srcId < b.srcId := by
  rw [entryOrder]
  by_cases h : a.recvTick = b.recvTick
  · rw [if_pos (beq_iff_eq.mpr h), decide_eq_true_eq]
    omega
  · rw [if_neg (by rwa [beq_iff_eq]), decide_eq_true_eq]
    omega

theorem entryOrder_trans {a b c : PortFifoEntry} (hab : entryOrder a b = true)
    (hbc : entryOrder b c = true) : entryOrder a c = true := by
  rw [entryOrder_iff] at *
  omega

/-- Entries of the same rank. -/
def sameRank (a b : PortFifoEntry) : Prop := a.recvTick = b.recvTick ∧ a.srcId = b.srcId

instance (a b : PortFifoEntry) : Decidable (sameRank a b) := inferInstanceAs (Decidable (_ ∧ _))

theorem entryOrder_total {a b : PortFifoEntry} (hne : ¬ sameRank a b)
    (h : ¬ entryOrder a b = true) : entryOrder b a = true := by
  rw [entryOrder_iff] at *
  rw [sameRank] at hne
  omega

/-- The entries are in order. -/
def InOrder (entries : List PortFifoEntry) : Prop :=
  entries.Pairwise fun a b => entryOrder a b = true

namespace PortFifo

/-- **Insertion** of an entry of a new rank. -/
theorem emplace_perm {e : PortFifoEntry} {l : List PortFifoEntry} (hne : ∀ x ∈ l, ¬ sameRank e x) :
    (emplace e l).Perm (e :: l) := by
  induction l with
  | nil => exact .refl _
  | cons x xs ih =>
    obtain ⟨hx, hxs⟩ := List.forall_mem_cons.mp hne
    rw [emplace]
    by_cases hbefore : entryOrder e x = true
    · rw [if_pos hbefore]
    · rw [if_neg hbefore, if_pos (entryOrder_total hx hbefore)]
      exact ((ih hxs).cons x).trans (.swap e x xs)

theorem emplace_inOrder {e : PortFifoEntry} {l : List PortFifoEntry}
    (hne : ∀ x ∈ l, ¬ sameRank e x) (h : InOrder l) : InOrder (emplace e l) := by
  induction l with
  | nil => exact List.pairwise_singleton _ _
  | cons x xs ih =>
    obtain ⟨hx, hxs⟩ := List.forall_mem_cons.mp hne
    obtain ⟨hfirst, hrest⟩ := List.pairwise_cons.mp h
    rw [emplace]
    by_cases hbefore : entryOrder e x = true
    · rw [if_pos hbefore]
      refine List.pairwise_cons.mpr ⟨List.forall_mem_cons.mpr ⟨hbefore, fun y hy => ?_⟩, h⟩
      exact entryOrder_trans hbefore (hfirst y hy)
    · have hbehind := entryOrder_total hx hbefore
      rw [if_neg hbefore, if_pos hbehind]
      refine List.pairwise_cons.mpr ⟨fun y hy => ?_, ih hxs hrest⟩
      rcases List.mem_cons.mp ((emplace_perm hxs).mem_iff.mp hy) with rfl | hold
      · exact hbehind
      · exact hfirst y hold

/-! ## Capacity -/

theorem totalLength_append (xs ys : List PortFifoEntry) :
    totalLength (xs ++ ys) = totalLength xs + totalLength ys := by
  rw [totalLength, List.map_append, List.sum_append]
  rfl

theorem avail_eq {f : PortFifo} (hmax : f.maxSize < 2 ^ 31) (hsize : f.size ≤ f.maxSize + 2 ^ 31) :
    f.avail = f.maxSize - f.size := by
  rw [avail, Int.bmod_eq_iff (by omega)]
  refine ⟨?_, ?_, ?_⟩ <;> omega

/-- What is left in the FIFO and what was dropped: the longest part of the entries that fits. -/
structure Trimmed (f f' : PortFifo) : Prop where
  maxSize : f'.maxSize = f.maxSize
  size : f'.size = totalLength f'.fifo
  fits : totalLength f'.fifo ≤ f.maxSize
  kept : ∃ rest dropped, f.fifo = f'.fifo ++ rest ∧ f'.dropped = f.dropped ++ dropped ∧
    dropped.map Prod.fst = rest.reverse ∧ ∀ d ∈ dropped, f.maxSize < d.2
  longest : ∀ entries, entries <+: f.fifo → totalLength entries ≤ f.maxSize →
    entries <+: f'.fifo

/-- **Dropping from the end** leaves the longest part that fits. -/
theorem trim_spec {f : PortFifo} (hmax : f.maxSize < 2 ^ 31)
    (hsize : f.size = totalLength f.fifo) (hroom : f.size ≤ f.maxSize + 2 ^ 31) {rounds : ℕ}
    (hrounds : f.fifo.length ≤ rounds) : ∃ f', trim rounds f = .ok f' ∧ Trimmed f f' := by
  induction rounds generalizing f with
  | zero =>
    have hnil : f.fifo = [] := List.eq_nil_of_length_eq_zero (by omega)
    have hzero : f.size = 0 := by
      rw [hsize, hnil]
      rfl
    refine ⟨f, ?_, rfl, hsize, by omega, ⟨[], [], ?_, ?_, rfl, nofun⟩, fun _ h _ => h⟩
    · rw [trim, if_pos (by rw [avail_eq hmax hroom]; omega)]
    · exact (List.append_nil _).symm
    · exact (List.append_nil _).symm
  | succ rounds ih =>
    by_cases hfits : 0 ≤ f.avail
    · have htotal : totalLength f.fifo ≤ f.maxSize := by
        rw [avail_eq hmax hroom] at hfits
        omega
      refine ⟨f, by rw [trim, if_pos hfits], rfl, hsize, htotal, ⟨[], [], ?_, ?_, rfl, nofun⟩,
        fun _ h _ => h⟩
      · exact (List.append_nil _).symm
      · exact (List.append_nil _).symm
    · have hover : f.maxSize < totalLength f.fifo := by
        rw [avail_eq hmax hroom] at hfits
        omega
      rcases List.eq_nil_or_concat' f.fifo with hnil | ⟨init, e, hconcat⟩
      · rw [hnil] at hover
        exact absurd hover (Nat.not_lt_zero _)
      · have hsum : totalLength f.fifo = totalLength init + e.packet.length := by
          rw [hconcat, totalLength_append]
          rfl
        have hnext : (f.size + 2 ^ 32 - e.packet.length) % 2 ^ 32 = totalLength init := by
          omega
        have hlength : f.fifo.length = init.length + 1 := by
          rw [hconcat, List.length_append]
          rfl
        have hstep : trim (rounds + 1) f = trim rounds { f with
            size := totalLength init
            fifo := init
            dropped := f.dropped ++ [(e, totalLength f.fifo)] } := by
          have hlast : f.fifo.getLast? = some e := by
            rw [hconcat, List.getLast?_concat]
          have hinit : f.fifo.dropLast = init := by
            rw [hconcat, List.dropLast_concat]
          rw [trim, if_neg hfits, hlast]
          dsimp only
          rw [hnext, hinit]
        obtain ⟨f', htrim, hkeep⟩ := ih (f := { f with
            size := totalLength init
            fifo := init
            dropped := f.dropped ++ [(e, totalLength f.fifo)] }) hmax rfl
          (by dsimp only; omega) (by dsimp only; omega)
        obtain ⟨rest, dropped, hfifo, hdropped, hsame, hlarge⟩ := hkeep.kept
        refine ⟨f', hstep.trans htrim, hkeep.maxSize, hkeep.size, hkeep.fits,
          ⟨rest ++ [e], (e, totalLength f.fifo) :: dropped, ?_, ?_, ?_, ?_⟩, ?_⟩
        · rw [hconcat, ← List.append_assoc, ← hfifo]
        · rw [hdropped, List.append_assoc]
          rfl
        · rw [List.map_cons, hsame, List.reverse_append]
          rfl
        · exact List.forall_mem_cons.mpr ⟨hover, hlarge⟩
        · intro entries hpart hentries
          refine hkeep.longest entries ?_ hentries
          -- the whole list does not fit
          rw [hconcat] at hpart
          rcases List.prefix_concat_iff.mp hpart with rfl | hshort
          · rw [← hconcat] at hentries
            exact absurd hentries (Nat.not_le.mpr hover)
          · exact hshort

/-- What the FIFO keeps: the count of the bytes, and the entries in order. -/
structure Kept (f : PortFifo) : Prop where
  maxSize : f.maxSize < 2 ^ 31
  size : f.size = totalLength f.fifo
  fits : f.size ≤ f.maxSize
  inOrder : InOrder f.fifo
  positive : ∀ e ∈ f.fifo, 0 < e.packet.length

theorem Kept.empty_iff {f : PortFifo} (h : f.Kept) : f.empty = true ↔ f.fifo = [] := by
  rw [empty, beq_iff_eq, h.size]
  constructor
  · intro hzero
    cases hfifo : f.fifo with
    | nil => rfl
    | cons e rest =>
      have hpos := h.positive e (hfifo ▸ List.mem_cons_self)
      rw [hfifo, totalLength, List.map_cons, List.sum_cons] at hzero
      omega
  · intro hnil
    rw [hnil]
    rfl

/-- **Pushing** an entry of a new rank. -/
theorem Kept.push {f : PortFifo} (h : f.Kept) {ptr : EthPacket} {senderId now : ℕ}
    (hpos : 0 < ptr.length) (hlong : ptr.length ≤ 2 ^ 31)
    (hne : ∀ x ∈ f.fifo, ¬ sameRank ⟨ptr, now, senderId⟩ x) :
    ∃ first f', f.push ptr senderId now = .ok (first, f') ∧ f'.Kept ∧
      Trimmed { f with fifo := emplace ⟨ptr, now, senderId⟩ f.fifo } f' ∧
      (∀ e ∈ f'.fifo.head?, e = ⟨ptr, now, senderId⟩ → first = true) ∧
      (first = true → f'.fifo ≠ []) := by
  have hperm := emplace_perm hne
  have hsize := h.size
  have hfits := h.fits
  have hmax := h.maxSize
  have htotal : (f.size + ptr.length) % 2 ^ 32 =
      totalLength (emplace ⟨ptr, now, senderId⟩ f.fifo) := by
    have hsum : totalLength (emplace ⟨ptr, now, senderId⟩ f.fifo) =
        ptr.length + totalLength f.fifo :=
      (hperm.map fun e : PortFifoEntry => e.packet.length).sum_eq
    rw [hsum]
    omega
  obtain ⟨f', htrim, hkeep⟩ := trim_spec
    (f := { f with
      size := (f.size + ptr.length) % 2 ^ 32
      fifo := emplace ⟨ptr, now, senderId⟩ f.fifo }) hmax htotal
    (by dsimp only; omega) le_rfl
  obtain ⟨rest, dropped, hfifo, hdropped, hsame, hlarge⟩ := hkeep.kept
  have hpart : f'.fifo <+: emplace ⟨ptr, now, senderId⟩ f.fifo := ⟨rest, hfifo.symm⟩
  have hkept : f'.Kept :=
    { maxSize := hkeep.maxSize ▸ hmax
      size := hkeep.size
      fits := by
        rw [hkeep.size, hkeep.maxSize]
        exact hkeep.fits
      inOrder := (emplace_inOrder hne h.inOrder).sublist hpart.sublist
      positive := by
        intro e he
        rcases List.mem_cons.mp (hperm.mem_iff.mp (hpart.subset he)) with rfl | hold
        · exact hpos
        · exact h.positive e hold }
  have hall : Trimmed { f with fifo := emplace ⟨ptr, now, senderId⟩ f.fifo } f' :=
    ⟨hkeep.maxSize, hkeep.size, hkeep.fits, ⟨rest, dropped, hfifo, hdropped, hsame, hlarge⟩,
      hkeep.longest⟩
  by_cases hempty : f'.empty = true
  · refine ⟨false, f', bind_eq_ok.mpr ⟨(), require_ok (decide_eq_true (by omega)),
      bind_eq_ok.mpr ⟨f', htrim, ?_⟩⟩, hkept, hall, ?_, nofun⟩
    · rw [if_pos hempty]
      rfl
    · rw [hkept.empty_iff.mp hempty]
      exact nofun
  · obtain ⟨head, tail, hlist⟩ :=
      List.exists_cons_of_ne_nil fun hnil => hempty (hkept.empty_iff.mpr hnil)
    refine ⟨head.packet.id == ptr.id, f', bind_eq_ok.mpr ⟨(),
      require_ok (decide_eq_true (by omega)), bind_eq_ok.mpr ⟨f', htrim, ?_⟩⟩, hkept, hall, ?_, ?_⟩
    · rw [if_neg hempty, front, hlist]
      rfl
    · intro e he heq
      rw [hlist, List.head?_cons, Option.mem_def, Option.some.injEq] at he
      rw [he, heq]
      exact beq_self_eq_true _
    · rw [hlist]
      exact fun _ => List.cons_ne_nil _ _

/-- **Popping** takes the first entry. -/
theorem Kept.pop {f : PortFifo} (h : f.Kept) {head : PortFifoEntry} {rest : List PortFifoEntry}
    (hfifo : f.fifo = head :: rest) :
    ∃ f', f.pop = .ok f' ∧ f'.Kept ∧ f'.fifo = rest ∧ f'.dropped = f.dropped ∧
      f'.maxSize = f.maxSize := by
  have hempty : ¬ f.empty = true := fun hc => by
    rw [h.empty_iff.mp hc] at hfifo
    cases hfifo
  have hsize : f.size = head.packet.length + totalLength rest := by
    rw [h.size, hfifo]
    rfl
  have hfits := h.fits
  refine ⟨{ f with size := f.size - head.packet.length, fifo := f.fifo.tail }, ?_,
    ⟨h.maxSize, ?_, ?_, ?_, ?_⟩, ?_, rfl, rfl⟩
  · rw [PortFifo.pop, if_neg hempty, front, hfifo]
    exact bind_eq_ok.mpr ⟨head, rfl,
      bind_eq_ok.mpr ⟨(), require_ok (decide_eq_true (by omega)), rfl⟩⟩
  · dsimp only
    rw [hfifo, List.tail_cons]
    omega
  · dsimp only
    omega
  · exact h.inOrder.tail
  · exact fun e he => h.positive e (List.mem_of_mem_tail he)
  · dsimp only
    rw [hfifo, List.tail_cons]

end PortFifo

namespace Interface

/-! ## Runs -/

/-- What can happen: ticks do not decrease, the transmit event is not missed, packets have a length
and delays are positive. -/
def Possible (s : Interface) : Action → Prop
  | .enqueue packet _ tick delay =>
      s.now ≤ tick ∧ (∀ w ∈ s.txEvent, tick ≤ w) ∧ 0 < packet.length ∧ 0 < delay
  | .transmit _ delay => s.txEvent.isSome = true ∧ 0 < delay

/-- What the port can handle: no packet from the same port in the same tick is stored, and a packet
that is longer than the capacity does not come before the packets that are stored. -/
def Handled (s : Interface) : Action → Prop
  | .enqueue packet senderId tick _ =>
      (∀ x ∈ s.outputFifo.fifo, ¬ sameRank ⟨packet, tick, senderId⟩ x) ∧
        packet.length ≤ 2 ^ 31 ∧ (packet.length ≤ s.outputFifo.maxSize ∨
          ∀ x ∈ s.outputFifo.fifo.head?, entryOrder x ⟨packet, tick, senderId⟩ = true)
  | .transmit .. => True

instance (s : Interface) : DecidablePred s.Possible
  | .enqueue .. => inferInstanceAs (Decidable (_ ∧ _))
  | .transmit .. => inferInstanceAs (Decidable (_ ∧ _))

instance (s : Interface) : DecidablePred s.Handled
  | .enqueue .. => inferInstanceAs (Decidable (_ ∧ _))
  | .transmit .. => .isTrue trivial

/-- **The packets of a port.** -/
structure Orderly (s : Interface) : Prop where
  size : s.outputFifo.size = totalLength s.outputFifo.fifo
  empty : s.outputFifo.empty = true ↔ s.outputFifo.fifo = []
  /-- the packets leave in order, before those that are stored -/
  order : InOrder (s.sent ++ s.outputFifo.fifo)
  /-- every packet was sent, is stored, or was dropped when the capacity was exceeded -/
  kept : s.pushed.Perm
    (s.sent ++ s.outputFifo.fifo ++ s.outputFifo.dropped.map Prod.fst)
  lost : ∀ d ∈ s.outputFifo.dropped, s.outputFifo.maxSize < d.2
  /-- the transmit event is scheduled while there is something to send -/
  armed : s.txEvent.isSome = true ↔ s.outputFifo.fifo ≠ []

/-- The invariant of a port. -/
structure Sound (s : Interface) : Prop where
  fifo : s.outputFifo.Kept
  order : InOrder (s.sent ++ s.outputFifo.fifo)
  kept : s.pushed.Perm
    (s.sent ++ s.outputFifo.fifo ++ s.outputFifo.dropped.map Prod.fst)
  lost : ∀ d ∈ s.outputFifo.dropped, s.outputFifo.maxSize < d.2
  armed : s.txEvent.isSome = true ↔ s.outputFifo.fifo ≠ []
  past : ∀ e ∈ s.sent, e.recvTick < s.now
  stored : ∀ e ∈ s.outputFifo.fifo, e.recvTick ≤ s.now
  event : ∀ w ∈ s.txEvent, s.now ≤ w ∧ ∀ e ∈ s.outputFifo.fifo.head?, e.recvTick < w

theorem Sound.orderly {s : Interface} (h : s.Sound) : s.Orderly :=
  ⟨h.fifo.size, h.fifo.empty_iff, h.order, h.kept, h.lost, h.armed⟩

section

variable {s : Interface} {packet : EthPacket} {senderId tick : ℕ}

/-- The head of the FIFO after a push: the new entry if it is first, or the head that was. -/
theorem head_of_trimmed {f f' : PortFifo} {e : PortFifoEntry} (h : f.Kept)
    (htrim : PortFifo.Trimmed { f with fifo := PortFifo.emplace e f.fifo } f')
    (hlong : e.packet.length ≤ f.maxSize ∨ ∀ x ∈ f.fifo.head?, entryOrder x e = true) :
    f'.fifo.head? = some e ∨ f'.fifo.head? = f.fifo.head? := by
  obtain ⟨rest, dropped, hfifo, -⟩ := htrim.kept
  -- a first entry that fits stays
  have hstays : ∀ x, (PortFifo.emplace e f.fifo).head? = some x → x.packet.length ≤ f.maxSize →
      f'.fifo.head? = some x := by
    intro x hx hlength
    obtain ⟨tail, htail⟩ : ∃ tail, PortFifo.emplace e f.fifo = x :: tail := by
      cases hl : PortFifo.emplace e f.fifo with
      | nil =>
        rw [hl] at hx
        cases hx
      | cons y ys =>
        rw [hl, List.head?_cons, Option.some.injEq] at hx
        exact ⟨ys, by rw [hx]⟩
    have hpart := htrim.longest [x] (by dsimp only; rw [htail]; exact ⟨tail, rfl⟩) hlength
    obtain ⟨more, hmore⟩ := hpart
    rw [← hmore]
    rfl
  cases hold : f.fifo with
  | nil =>
    rw [hold] at hfifo
    cases hkept : f'.fifo with
    | nil => exact .inr rfl
    | cons y ys =>
      rw [hkept] at hfifo
      left
      rw [List.head?_cons, ← (List.cons.inj hfifo).1]
  | cons x xs =>
    have hx : x.packet.length ≤ f.maxSize := by
      have hfits := h.fits
      rw [h.size, hold, totalLength, List.map_cons, List.sum_cons] at hfits
      omega
    by_cases hbefore : entryOrder e x = true
    · rcases hlong with hshort | hbehind
      · refine .inl (hstays e ?_ hshort)
        rw [hold, PortFifo.emplace, if_pos hbefore]
        rfl
      · have hloop := hbehind x (by rw [hold]; rfl)
        rw [entryOrder_iff] at hbefore hloop
        omega
    · refine .inr (hstays x ?_ hx)
      rw [hold, PortFifo.emplace, if_neg hbefore]
      split <;> rfl

/-- **A packet is put in the queue.** -/
theorem Sound.enqueue (h : s.Sound) {delay : ℕ} (hnow : s.now ≤ tick)
    (hevent : ∀ w ∈ s.txEvent, tick ≤ w) (hpos : 0 < packet.length) (hdelay : 0 < delay)
    (hne : ∀ x ∈ s.outputFifo.fifo, ¬ sameRank ⟨packet, tick, senderId⟩ x)
    (hsize : packet.length ≤ 2 ^ 31)
    (hlong : packet.length ≤ s.outputFifo.maxSize ∨
      ∀ x ∈ s.outputFifo.fifo.head?, entryOrder x ⟨packet, tick, senderId⟩ = true) :
    ∃ s', s.enqueue packet senderId tick delay = .ok s' ∧ s'.Sound := by
  obtain ⟨first, f', hpush, hkept, htrim, hfirst, hsome⟩ := h.fifo.push hpos hsize hne
  have hperm := PortFifo.emplace_perm hne
  obtain ⟨rest, dropped, hfifo, hdropped, hsame, hlarge⟩ := htrim.kept
  dsimp only at hfifo hdropped
  have hentries : ∀ e ∈ f'.fifo, e = ⟨packet, tick, senderId⟩ ∨ e ∈ s.outputFifo.fifo := by
    intro e he
    rw [← List.mem_cons, ← hperm.mem_iff, hfifo]
    exact List.mem_append_left rest he
  have horder : InOrder (s.sent ++ f'.fifo) := by
    obtain ⟨hsent, -, hcross⟩ := List.pairwise_append.mp h.order
    refine List.pairwise_append.mpr ⟨hsent, hkept.inOrder, fun a ha b hb => ?_⟩
    rcases hentries b hb with rfl | hold
    · exact entryOrder_iff.mpr (.inl ((h.past a ha).trans_le hnow))
    · exact hcross a ha b hold
  have hall : (s.pushed ++ [(⟨packet, tick, senderId⟩ : PortFifoEntry)]).Perm
      (s.sent ++ f'.fifo ++ f'.dropped.map Prod.fst) := by
    refine List.perm_iff_count.mpr fun a => ?_
    have hpushed := h.kept.count_eq a
    have hnew := hperm.count_eq a
    rw [hfifo, List.count_append, ← List.singleton_append, List.count_append] at hnew
    simp only [List.count_append] at hpushed ⊢
    rw [hdropped, List.map_append, List.count_append, hsame, List.count_reverse]
    omega
  have hover : ∀ d ∈ f'.dropped, f'.maxSize < d.2 := by
    intro d hd
    rw [hdropped] at hd
    rw [htrim.maxSize]
    rcases List.mem_append.mp hd with hold | hnew
    · exact h.lost d hold
    · exact hlarge d hnew
  have hstored : ∀ e ∈ f'.fifo, e.recvTick ≤ tick := by
    intro e he
    rcases hentries e he with rfl | hold
    · exact le_rfl
    · exact (h.stored e hold).trans hnow
  have hpast : ∀ e ∈ s.sent, e.recvTick < tick := fun e he => (h.past e he).trans_le hnow
  cases first with
  | true =>
    obtain ⟨head, tail, hlist⟩ := List.exists_cons_of_ne_nil (hsome rfl)
    refine ⟨_, bind_eq_ok.mpr ⟨(true, f'), hpush, bind_eq_ok.mpr ⟨head, ?_, rfl⟩⟩,
      ⟨hkept, horder, hall, hover, ?_, hpast, hstored, ?_⟩⟩
    · rw [PortFifo.front, hlist]
      rfl
    · exact iff_of_true rfl (hsome rfl)
    · rintro w hw
      rw [Option.mem_def, Option.some.injEq] at hw
      dsimp only
      refine ⟨by omega, fun e he => ?_⟩
      have := hstored e (List.mem_of_mem_head? he)
      omega
  | false =>
    have hhead : f'.fifo.head? = s.outputFifo.fifo.head? := by
      rcases head_of_trimmed h.fifo htrim hlong with hnew | hold
      · exact absurd (hfirst _ hnew rfl) Bool.false_ne_true
      · exact hold
    refine ⟨_, bind_eq_ok.mpr ⟨(false, f'), hpush, rfl⟩,
      ⟨hkept, horder, hall, hover, ?_, hpast, hstored, ?_⟩⟩
    · dsimp only
      rw [← List.isSome_head?, hhead, List.isSome_head?]
      exact h.armed
    · intro w hw
      refine ⟨hevent w hw, fun e he => (h.event w hw).2 e ?_⟩
      rw [← hhead]
      exact he

/-- **The transmit event.** -/
theorem Sound.transmit (h : s.Sound) (hevent : s.txEvent = some tick) (sent : Bool) {delay : ℕ}
    (hdelay : 0 < delay) :
    ∃ s', ({ s with txEvent := none, now := tick } : Interface).transmit sent delay = .ok s' ∧
      s'.Sound := by
  obtain ⟨hnow, hbefore⟩ := h.event tick hevent
  obtain ⟨head, rest, hlist⟩ := List.exists_cons_of_ne_nil (h.armed.mp (hevent ▸ rfl))
  have hhead : head.recvTick < tick := hbefore head (hlist ▸ rfl)
  have hempty : (!s.outputFifo.empty) = true := by
    rw [Bool.not_eq_true', ← Bool.not_eq_true, h.fifo.empty_iff, hlist]
    exact List.cons_ne_nil _ _
  have hfront : s.outputFifo.front = .ok head := by
    rw [PortFifo.front, hlist]
    rfl
  have hpast : ∀ e ∈ s.sent, e.recvTick < tick := fun e he => (h.past e he).trans_le hnow
  cases sent with
  | false =>
    refine ⟨{ s with txEvent := some (tick + delay), now := tick }, bind_eq_ok.mpr ⟨(),
      require_ok hempty, bind_eq_ok.mpr ⟨head, hfront, rfl⟩⟩,
      ⟨h.fifo, h.order, h.kept, h.lost, ?_, hpast,
        fun e he => (h.stored e he).trans hnow, ?_⟩⟩
    · exact iff_of_true rfl (hlist ▸ List.cons_ne_nil _ _)
    · intro w hw
      rw [Option.mem_def, Option.some.injEq] at hw
      refine ⟨hw ▸ Nat.le_add_right _ _, fun e he => ?_⟩
      have := hbefore e he
      omega
  | true =>
    obtain ⟨f', hpop, hkept, hrest, hdropped, hmax⟩ := h.fifo.pop hlist
    have hsplit : s.sent ++ [head] ++ f'.fifo = s.sent ++ s.outputFifo.fifo := by
      rw [hrest, hlist, List.append_assoc]
      rfl
    have hstored : ∀ e ∈ f'.fifo, e.recvTick ≤ tick := by
      rw [hrest]
      exact fun e he => (h.stored e (hlist ▸ List.mem_cons_of_mem _ he)).trans hnow
    have hpast' : ∀ e ∈ s.sent ++ [head], e.recvTick < tick := by
      intro e he
      rcases List.mem_append.mp he with hold | hnew
      · exact hpast e hold
      · exact List.mem_singleton.mp hnew ▸ hhead
    have horder : InOrder (s.sent ++ [head] ++ f'.fifo) := hsplit ▸ h.order
    have hall : s.pushed.Perm (s.sent ++ [head] ++ f'.fifo ++ f'.dropped.map Prod.fst) := by
      rw [hsplit, hdropped]
      exact h.kept
    have hover : ∀ d ∈ f'.dropped, f'.maxSize < d.2 := by
      rw [hdropped, hmax]
      exact h.lost
    cases hlast : rest with
    | nil =>
      have hdone : f'.empty = true := hkept.empty_iff.mpr (hrest.trans hlast)
      refine ⟨{ s with
          outputFifo := f'
          txEvent := none
          now := tick
          sent := s.sent ++ [head] }, ?_,
        ⟨hkept, horder, hall, hover, ?_, hpast', hstored, nofun⟩⟩
      · refine bind_eq_ok.mpr ⟨(), require_ok hempty, bind_eq_ok.mpr ⟨head, hfront, ?_⟩⟩
        rw [if_pos rfl]
        refine bind_eq_ok.mpr ⟨f', hpop, ?_⟩
        dsimp only
        rw [if_pos hdone]
        rfl
      · exact iff_of_false Bool.false_ne_true (not_not_intro (hrest.trans hlast))
    | cons next more =>
      have hnext : f'.fifo = next :: more := hrest.trans hlast
      have hgoes : ¬ f'.empty = true := fun hc => by
        rw [hkept.empty_iff.mp hc] at hnext
        cases hnext
      refine ⟨{ s with
          outputFifo := f'
          txEvent := some (tick + delay)
          now := tick
          sent := s.sent ++ [head] }, ?_,
        ⟨hkept, horder, hall, hover, ?_, hpast', hstored, ?_⟩⟩
      · refine bind_eq_ok.mpr ⟨(), require_ok hempty, bind_eq_ok.mpr ⟨head, hfront, ?_⟩⟩
        rw [if_pos rfl]
        refine bind_eq_ok.mpr ⟨f', hpop, ?_⟩
        dsimp only
        rw [if_neg hgoes]
        refine bind_eq_ok.mpr ⟨next, ?_, bind_eq_ok.mpr ⟨(), rfl, rfl⟩⟩
        rw [PortFifo.front, hnext]
        rfl
      · exact iff_of_true rfl (hnext ▸ List.cons_ne_nil _ _)
      · intro w hw
        rw [Option.mem_def, Option.some.injEq] at hw
        refine ⟨hw ▸ Nat.le_add_right _ _, fun e he => ?_⟩
        have := hstored e (List.mem_of_mem_head? he)
        omega

end

theorem Sound.step {s : Interface} (h : s.Sound) {a : Action} (hpossible : s.Possible a)
    (hhandled : s.Handled a) : ∃ s', s.step a = .ok s' ∧ s'.Sound := by
  cases a with
  | enqueue packet senderId tick delay =>
    obtain ⟨hnow, hevent, hpos, hdelay⟩ := hpossible
    obtain ⟨hne, hsize, hlong⟩ := hhandled
    exact h.enqueue hnow hevent hpos hdelay hne hsize hlong
  | transmit sent delay =>
    obtain ⟨hsome, hdelay⟩ := hpossible
    obtain ⟨tick, htick⟩ := Option.isSome_iff_exists.mp hsome
    rw [Interface.step, htick]
    exact h.transmit htick sent hdelay

theorem sound_new {maxSize : ℕ} (hmax : maxSize < 2 ^ 31) : (new maxSize).Sound where
  fifo := ⟨hmax, rfl, Nat.zero_le _, .nil, nofun⟩
  order := .nil
  kept := .refl _
  lost := nofun
  armed := iff_of_false Bool.false_ne_true (not_not_intro rfl)
  past := nofun
  stored := nofun
  event := nofun

/-- **The packets of a port are counted right and leave in order**, in every run in which no two
packets of the same rank meet in the port and no packet that is too long comes first. -/
theorem packets_in_order {maxSize : ℕ} (hmax : maxSize < 2 ^ 31) {as : List Action}
    (ha : Admitted (fun s a => s.Possible a ∧ s.Handled a) step (new maxSize) as) :
    ∃ s, run step (new maxSize) as = .ok s ∧ s.Orderly := by
  obtain ⟨s, hrun, hsound⟩ := run_total (fun _ _ h ha => h.step ha.1 ha.2) (sound_new hmax) ha
  exact ⟨s, hrun, hsound.orderly⟩

/-- An Ethernet address for examples. -/
def broadcastAddr : EthAddr := ⟨Vector.replicate 6 0xff⟩

/-- Packets from two ports in one tick, a refused one, and one for which there is no room. -/
theorem packets_in_order_two_ports :
    ∃ s, run step (new 200)
      [.enqueue ⟨0, broadcastAddr, broadcastAddr, 100⟩ 2 5 3,
        .enqueue ⟨1, broadcastAddr, broadcastAddr, 60⟩ 1 5 3, .transmit false 1,
        .enqueue ⟨2, broadcastAddr, broadcastAddr, 64⟩ 1 9 3, .transmit true 4,
        .transmit true 4] = .ok s ∧ s.Orderly :=
  packets_in_order (by decide) (by decide +kernel)

/-- The second of two packets from one port in one tick is counted and not stored, and the port
accesses an empty set.  A packet longer than the capacity that comes first empties the set under the
transmit event. -/
theorem coinciding_packet_lost :
    (∃ s, run step (new 1000)
        [.enqueue ⟨0, broadcastAddr, broadcastAddr, 100⟩ 0 5 3,
          .enqueue ⟨1, broadcastAddr, broadcastAddr, 60⟩ 0 5 3] = .ok s ∧
      (s.outputFifo.size = 160 ∧ s.outputFifo.fifo.length = 1 ∧ s.outputFifo.dropped = [])) ∧
    run step (new 1000)
      [.enqueue ⟨0, broadcastAddr, broadcastAddr, 100⟩ 0 5 3,
        .enqueue ⟨1, broadcastAddr, broadcastAddr, 60⟩ 0 5 3, .transmit true 3] =
      .error .emptySet ∧
    run step (new 100)
      [.enqueue ⟨0, broadcastAddr, broadcastAddr, 100⟩ 1 5 3,
        .enqueue ⟨1, broadcastAddr, broadcastAddr, 160⟩ 0 5 3, .transmit true 3] =
      .error .nothingToSend := by
  refine ⟨?_, ?_, ?_⟩ <;> decide +kernel

end Interface

end Gem5.EtherSwitch
