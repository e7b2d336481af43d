/-
# The packet FIFO of the Ethernet devices

`PacketFifo` keeps the packets that a device has received and not yet passed on, in order, within a
number of bytes.  A packet that is removed from the middle leaves its bytes behind as the `slack` of
the one before it, and `reserve` holds bytes for a packet that is still being built.

`copyout` is meant to copy a range of bytes of the stored stream.  Each packet is copied from its
first byte, also the one in which the range begins, so it does so only for a range that begins at
offset 0 and ends before the last byte (`copyout_exact_iff`).
-/
import Gem5.Runs

namespace Gem5.Ethernet

open Runs

/-- A packet: its bytes. -/
structure EthPacketData where
  data : List (BitVec 8)
  deriving DecidableEq, Repr

def EthPacketData.length (pkt : EthPacketData) : ℕ := pkt.data.length

/-- The assertions and the panic of the FIFO, and the use of an iterator that is past the end. -/
inductive FifoError
  | noLength
  | overReserved
  | noRoom
  | pastEnd
  | invalidFifo
  deriving DecidableEq, Repr

structure PacketFifoEntry where
  packet : EthPacketData
  number : ℕ
  slack : ℕ
  deriving DecidableEq, Repr

structure PacketFifo where
  fifo : List PacketFifoEntry
  counter : ℕ
  maxsize : ℕ
  size : ℕ
  reserved : ℕ
  deriving DecidableEq, Repr

namespace PacketFifo

/-! ## The operations -/

def new (max : ℕ) : PacketFifo where
  fifo := []
  counter := 0
  maxsize := max
  size := 0
  reserved := 0

def avail (f : PacketFifo) : ℕ := f.maxsize - f.size - f.reserved

def empty (f : PacketFifo) : Bool := f.size ≤ 0

def full (f : PacketFifo) : Bool := f.avail ≤ 0

def reserve (f : PacketFifo) (len : ℕ) : Except FifoError PacketFifo := do
  require .noRoom (f.avail ≥ len)
  return { f with reserved := f.reserved + len }

/-- A packet that does not fit is refused, and the FIFO stays as it is. -/
def push (f : PacketFifo) (ptr : EthPacketData) : Except FifoError (Bool × PacketFifo) := do
  require .noLength (ptr.length ≠ 0)
  require .overReserved (f.reserved ≤ ptr.length)
  if f.avail < ptr.length - f.reserved then
    return (false, f)
  return (true,
    { f with
      size := f.size + ptr.length
      fifo := f.fifo ++ [⟨ptr, f.counter, 0⟩]
      counter := f.counter + 1
      reserved := 0 })

def pop (f : PacketFifo) : PacketFifo :=
  if f.empty then f
  else
    match f.fifo with
    | entry :: fifo => { f with size := f.size - entry.packet.length - entry.slack, fifo := fifo }
    | [] => f

def clear (f : PacketFifo) : PacketFifo := { f with fifo := [], size := 0, reserved := 0 }

/-- Remove the entry at position `i`. -/
def remove (f : PacketFifo) (i : ℕ) : Except FifoError PacketFifo :=
  match f.fifo[i]?, i with
  | none, _ => .error .pastEnd
  | some e, prev + 1 => .ok
      { f with
        fifo := (f.fifo.modify prev fun p =>
          { p with slack := p.slack + e.packet.length + e.slack }).eraseIdx i }
  | some e, 0 => .ok
      { f with
        size := f.size - e.packet.length - e.slack
        fifo := f.fifo.eraseIdx 0 }

/-- The loop of `copyout`, with the iterator as the entries from it on.  `pkt` is bound when a round
begins and stays bound to that packet while the round moves the iterator: `none` at the head of a
round, `some pkt` inside the search for the offset.  What is left of the offset shortens the copy
and does not move its start. -/
def copyLoop (pkt : Option EthPacketData) (offset len : ℕ) :
    List PacketFifoEntry → Except FifoError (List (BitVec 8))
  | [] =>
      match pkt with
      | none => if len = 0 then .ok [] else .error .pastEnd
      | some p => if offset ≥ p.length then .error .pastEnd else .error .invalidFifo
  | entry :: i =>
      if pkt = none ∧ len = 0 then .ok []
      else
        let p := pkt.getD entry.packet
        if offset ≥ p.length then copyLoop (some p) (offset - p.length) len i
        else do
          let size := min (p.length - offset) len
          let data ← copyLoop none 0 (len - size) i
          return p.data.take size ++ data

/-- The bytes written to `dest` come with the answer.  The sum is one of 32-bit unsigned values. -/
def copyout (f : PacketFifo) (offset len : ℕ) : Except FifoError (Bool × List (BitVec 8)) := do
  if (offset + len) % 2 ^ 32 ≥ f.size then
    return (false, [])
  let data ← copyLoop none offset len f.fifo
  return (true, data)

/-! ## What is stored -/

/-- The bytes of the stored packets, in order. -/
def stored (f : PacketFifo) : List (BitVec 8) := (f.fifo.map (·.packet.data)).flatten

/-- The lengths of the stored packets. -/
def lengths (f : PacketFifo) : List ℕ := f.fifo.map (·.packet.length)

/-- No packet was removed from behind one that is still stored. -/
def SlackFree (f : PacketFifo) : Prop := ∀ e ∈ f.fifo, e.slack = 0

/-- The byte counts of the FIFO are those of its entries, and within its capacity. -/
structure Sized (f : PacketFifo) : Prop where
  positive : ∀ e ∈ f.fifo, 0 < e.packet.length
  size_eq : f.size = (f.fifo.map fun e => e.packet.length + e.slack).sum
  size_le : f.size + f.reserved ≤ f.maxsize

theorem stored_length (f : PacketFifo) : f.stored.length = f.lengths.sum := by
  rw [stored, lengths, List.length_flatten, List.map_map]
  rfl

variable {l : List PacketFifoEntry} {f g : PacketFifo} {offset len : ℕ}

theorem sum_slackFree (h : ∀ e ∈ l, e.slack = 0) :
    (l.map fun e => e.packet.length + e.slack).sum = (l.map (·.packet.length)).sum := by
  congr 1
  exact List.map_congr_left fun e he => by rw [h e he, Nat.add_zero]

theorem Sized.size_slackFree (h : f.Sized) (hs : f.SlackFree) :
    f.size = f.lengths.sum := by
  rw [h.size_eq, sum_slackFree hs, lengths]

/-! ## Runs of the FIFO -/

/-- What a device does with the FIFO. -/
inductive Action
  | reserve (len : ℕ)
  | push (ptr : EthPacketData)
  | pop
  | remove (i : ℕ)
  | clear
  deriving DecidableEq, Repr

def step (f : PacketFifo) : Action → Except FifoError PacketFifo
  | .reserve len => f.reserve len
  | .push ptr => do return (← f.push ptr).2
  | .pop => .ok f.pop
  | .remove i => f.remove i
  | .clear => .ok f.clear

theorem Sized.new (max : ℕ) : (PacketFifo.new max).Sized where
  positive := fun _ he => absurd he List.not_mem_nil
  size_eq := rfl
  size_le := Nat.zero_le _

theorem Sized.reserve (h : f.Sized) (hg : f.reserve len = .ok g) :
    g.Sized := by
  obtain ⟨_, hroom, hg⟩ := bind_eq_ok.mp hg
  have hroom := of_decide_eq_true (require_eq_ok.mp hroom)
  cases hg
  have hle := h.size_le
  rw [avail] at hroom
  exact ⟨h.positive, h.size_eq, by dsimp only; omega⟩

/-- What `push` does: it refuses a packet without room, and stores any other at the end. -/
theorem push_eq_ok {ptr : EthPacketData} {r : Bool × PacketFifo} :
    f.push ptr = .ok r ↔ ptr.length ≠ 0 ∧ f.reserved ≤ ptr.length ∧
      r = if f.avail < ptr.length - f.reserved then (false, f) else
        (true, { f with
          size := f.size + ptr.length
          fifo := f.fifo ++ [⟨ptr, f.counter, 0⟩]
          counter := f.counter + 1
          reserved := 0 }) := by
  rw [push, bind_eq_ok]
  simp only [require_eq_ok, bind_eq_ok, decide_eq_true_eq, exists_and_left, exists_const]
  constructor
  · rintro ⟨hlen, hres, h⟩
    refine ⟨hlen, hres, ?_⟩
    split at h <;> rename_i hroom
    · rw [if_pos hroom]
      exact (Except.ok.inj h).symm
    · rw [if_neg hroom]
      exact (Except.ok.inj h).symm
  · rintro ⟨hlen, hres, rfl⟩
    refine ⟨hlen, hres, ?_⟩
    split <;> rfl

theorem Sized.push {ptr : EthPacketData} {r : Bool × PacketFifo} (h : f.Sized)
    (hr : f.push ptr = .ok r) : r.2.Sized := by
  obtain ⟨hlen, hres, rfl⟩ := push_eq_ok.mp hr
  have hle := h.size_le
  by_cases hroom : f.avail < ptr.length - f.reserved
  · rw [if_pos hroom]
    exact h
  · rw [if_neg hroom]
    rw [avail] at hroom
    refine ⟨fun e he => ?_, ?_, ?_⟩
    · rcases List.mem_append.mp he with he | he
      · exact h.positive e he
      · rw [List.mem_singleton.mp he]
        exact Nat.pos_of_ne_zero hlen
    · dsimp only
      rw [List.map_append, List.sum_append, h.size_eq]
      rfl
    · dsimp only
      omega

theorem Sized.pop (h : f.Sized) : f.pop.Sized := by
  unfold PacketFifo.pop
  by_cases he : f.empty
  · rw [if_pos he]
    exact h
  · rw [if_neg he]
    have hsum := h.size_eq
    have hle := h.size_le
    cases hf : f.fifo with
    | nil => exact h
    | cons entry fifo =>
      rw [hf, List.map_cons, List.sum_cons] at hsum
      refine ⟨fun e hmem => h.positive e (hf ▸ List.mem_cons_of_mem _ hmem), ?_, ?_⟩
      · dsimp only
        omega
      · dsimp only
        omega

/-- Bytes that move from an entry to the one before it stay in the sum. -/
theorem sum_remove {prev : ℕ} {e : PacketFifoEntry} (h : l[prev + 1]? = some e) :
    (((l.modify prev fun p => { p with slack := p.slack + e.packet.length + e.slack }).eraseIdx
      (prev + 1)).map fun e => e.packet.length + e.slack).sum =
        (l.map fun e => e.packet.length + e.slack).sum := by
  induction prev generalizing l with
  | zero =>
    match l, h with
    | p :: q :: l, h =>
      rw [show q = e from Option.some.inj h]
      simp only [List.modify_zero_cons, List.eraseIdx_cons_succ, List.eraseIdx_cons_zero,
        List.map_cons, List.sum_cons]
      omega
  | succ prev ih =>
    match l, h with
    | p :: l, h =>
      rw [List.modify_succ_cons, List.eraseIdx_cons_succ, List.map_cons, List.sum_cons,
        List.map_cons, List.sum_cons, ih h]

theorem Sized.remove {i : ℕ} (h : f.Sized) (hg : f.remove i = .ok g) :
    g.Sized := by
  unfold PacketFifo.remove at hg
  split at hg
  · cases hg
  · rename_i e prev hget
    cases hg
    refine ⟨fun q hq => ?_, ?_, h.size_le⟩
    · obtain ⟨p, hp, hlen⟩ : ∃ p ∈ f.fifo, q.packet.length = p.packet.length := by
        obtain ⟨k, hk⟩ := List.mem_iff_getElem?.mp (List.mem_of_mem_eraseIdx hq)
        rw [List.getElem?_modify] at hk
        obtain ⟨p, hp, rfl⟩ := Option.map_eq_some_iff.mp hk
        refine ⟨p, List.mem_of_getElem? hp, ?_⟩
        split <;> rfl
      rw [hlen]
      exact h.positive p hp
    · rw [h.size_eq]
      exact (sum_remove hget).symm
  · rename_i e hget
    cases hg
    have hsum := h.size_eq
    have hle := h.size_le
    cases hf : f.fifo with
    | nil => rw [hf] at hget; cases hget
    | cons entry fifo =>
      rw [hf] at hget hsum
      rw [show entry = e from Option.some.inj hget, List.map_cons, List.sum_cons] at hsum
      refine ⟨fun q hq => h.positive q (hf ▸ List.mem_of_mem_eraseIdx hq), ?_, ?_⟩
      · dsimp only
        rw [List.eraseIdx_cons_zero]
        omega
      · dsimp only
        omega

theorem Sized.step {a : Action} (h : f.Sized) (hg : f.step a = .ok g) :
    g.Sized := by
  cases a with
  | reserve len => exact h.reserve hg
  | push ptr =>
    obtain ⟨r, hr, hg⟩ := bind_eq_ok.mp hg
    cases hg
    exact h.push hr
  | pop =>
    cases hg
    exact h.pop
  | remove i => exact h.remove hg
  | clear =>
    cases hg
    exact ⟨fun e he => absurd he List.not_mem_nil, rfl, Nat.zero_le _⟩

theorem step_maxsize {a : Action} (hg : f.step a = .ok g) :
    g.maxsize = f.maxsize := by
  cases a with
  | reserve len =>
    obtain ⟨_, -, hg⟩ := bind_eq_ok.mp hg
    cases hg
    rfl
  | push ptr =>
    obtain ⟨r, hr, hg⟩ := bind_eq_ok.mp hg
    cases hg
    obtain ⟨-, -, rfl⟩ := push_eq_ok.mp hr
    split <;> rfl
  | pop =>
    cases hg
    unfold PacketFifo.pop
    split
    · rfl
    · split <;> rfl
  | remove i =>
    replace hg : f.remove i = .ok g := hg
    unfold PacketFifo.remove at hg
    split at hg <;> cases hg <;> rfl
  | clear =>
    cases hg
    rfl

/-- **The counts are right in every FIFO that is reached.** -/
theorem sized_reached {max : ℕ} {as : List Action} (h : run step (new max) as = .ok f) :
    f.Sized ∧ f.maxsize = max := by
  have hall : Admitted (fun _ _ => True) step (new max) as :=
    admitted_of_forall fun _ _ _ => trivial
  exact run_invariant (P := fun f => f.Sized ∧ f.maxsize = max)
    (fun _ _ _ hs _ hstep => ⟨hs.1.step hstep, (step_maxsize hstep).trans hs.2⟩)
    ⟨.new max, rfl⟩ hall h

/-! ## Copying from the first byte -/

/-- **A range that begins with the first byte is copied exactly.** -/
theorem copyLoop_none (hpos : ∀ e ∈ l, 0 < e.packet.length)
    (hlen : len ≤ (l.map (·.packet.length)).sum) :
    copyLoop none 0 len l = .ok ((l.map (·.packet.data)).flatten.take len) := by
  induction l generalizing len with
  | nil =>
    rw [List.map_nil, List.sum_nil] at hlen
    rw [copyLoop, if_pos (Nat.le_zero.mp hlen), List.map_nil, List.flatten_nil, List.take_nil]
  | cons e l ih =>
    rw [List.map_cons, List.sum_cons] at hlen
    rw [copyLoop]
    by_cases hz : len = 0
    · rw [if_pos ⟨rfl, hz⟩, hz, List.take_zero]
    · have hfits : len - min (e.packet.length - 0) len ≤ (l.map (·.packet.length)).sum := by omega
      have hrest := ih (fun q hq => hpos q (List.mem_cons_of_mem _ hq)) hfits
      rw [if_neg fun h => hz h.2, Option.getD_none,
        if_neg (Nat.not_le.mpr (hpos e List.mem_cons_self))]
      dsimp only
      rw [hrest]
      have hdata : e.packet.data.length = e.packet.length := rfl
      rw [List.map_cons, List.flatten_cons, List.take_append, hdata]
      refine congrArg Except.ok (congrArg₂ _ ?_ ?_)
      · rw [List.take_eq_take_iff, hdata]
        omega
      · congr 1
        omega

theorem head?_of_copied {p : EthPacketData} {i : List PacketFifoEntry} {bytes : List (BitVec 8)}
    (hlen : len ≠ 0) (hoff : ¬ offset ≥ p.length) (h : (do
      let data ← copyLoop none 0 (len - min (p.length - offset) len) i
      return p.data.take (min (p.length - offset) len) ++ data) = Except.ok bytes) :
    bytes.head? = p.data.head? := by
  obtain ⟨data, -, h⟩ := bind_eq_ok.mp h
  cases h
  obtain ⟨k, hk⟩ : ∃ k, min (p.length - offset) len = k + 1 :=
    Nat.exists_eq_succ_of_ne_zero (by omega)
  cases hp : p.data with
  | nil =>
    have hzero : p.length = 0 := congrArg List.length hp
    omega
  | cons b rest =>
    rw [hk, List.take_succ_cons, List.cons_append, List.head?_cons, List.head?_cons]

/-- A search that ends in a copy copies the first byte of the packet it began with. -/
theorem copyLoop_head {e : PacketFifoEntry} {pkt : Option EthPacketData} {bytes : List (BitVec 8)}
    (hlen : len ≠ 0) (h : copyLoop pkt offset len (e :: l) = .ok bytes) :
    bytes.head? = (pkt.getD e.packet).data.head? := by
  induction l generalizing e pkt offset with
  | nil =>
    rw [copyLoop, if_neg fun h => hlen h.2] at h
    by_cases hoff : offset ≥ (pkt.getD e.packet).length
    · rw [if_pos hoff, copyLoop] at h
      split at h <;> cases h
    · rw [if_neg hoff] at h
      exact head?_of_copied hlen hoff h
  | cons e' l ih =>
    rw [copyLoop, if_neg fun h => hlen h.2] at h
    by_cases hoff : offset ≥ (pkt.getD e.packet).length
    · rw [if_pos hoff] at h
      have hrest := ih h
      exact hrest
    · rw [if_neg hoff] at h
      exact head?_of_copied hlen hoff h

/-! ## Which requests are answered as they should be -/

/-- `copyout` answers a request as it should: with the bytes asked for if they are stored, else with
`false`. -/
def CopiesStream (f : PacketFifo) (offset len : ℕ) : Prop :=
  f.copyout offset len = .ok
    (if offset + len ≤ f.stored.length then (true, (f.stored.drop offset).take len)
    else (false, []))

instance (f : PacketFifo) (offset len : ℕ) : Decidable (f.CopiesStream offset len) :=
  inferInstanceAs (Decidable (_ = _))

/-- A range that ends before the last byte and begins with the first one, or is empty; or a range
that is too long also as a 32-bit value. -/
def FromStart (lengths : List ℕ) (offset len : ℕ) : Prop :=
  (offset + len < lengths.sum ∧ (len = 0 ∨ offset = 0)) ∨
    (lengths.sum < offset + len ∧ lengths.sum ≤ (offset + len) % 2 ^ 32)

theorem copyout_refused (h : f.size ≤ (offset + len) % 2 ^ 32) :
    f.copyout offset len = .ok (false, []) := by
  rw [copyout, if_pos h]
  rfl

/-- A request that passes the test is not refused. -/
theorem copyout_passed (h : (offset + len) % 2 ^ 32 < f.size) {r : Bool × List (BitVec 8)}
    (hr : f.copyout offset len = .ok r) :
    r.1 = true ∧ copyLoop none offset len f.fifo = .ok r.2 := by
  rw [copyout, if_neg (Nat.not_le.mpr h)] at hr
  obtain ⟨data, hdata, hr⟩ := bind_eq_ok.mp hr
  cases hr
  exact ⟨rfl, hdata⟩

/-- **Every request from the first byte on, or too long, is answered as it should be.** -/
theorem copies_of_fromStart (h : f.Sized) (hs : f.SlackFree) (hmax : f.maxsize < 2 ^ 32)
    (hin : FromStart f.lengths offset len) :
    f.CopiesStream offset len := by
  have hsize := h.size_slackFree hs
  have hle := h.size_le
  rw [CopiesStream, stored_length]
  rcases hin with ⟨hlt, hoff⟩ | ⟨hlong, hwrap⟩
  · have hnowrap : (offset + len) % 2 ^ 32 = offset + len := Nat.mod_eq_of_lt (by omega)
    rw [if_pos hlt.le, copyout, if_neg (by omega)]
    have hloop : copyLoop none offset len f.fifo = .ok ((f.stored.drop offset).take len) := by
      rcases hoff with rfl | rfl
      · rw [List.take_zero]
        cases f.fifo <;> simp [copyLoop]
      · rw [Nat.zero_add] at hlt
        exact copyLoop_none h.positive hlt.le
    rw [hloop]
    rfl
  · rw [if_neg (Nat.not_le.mpr hlong), copyout_refused (by omega)]

/-- Packets for which there is room are all stored. -/
theorem run_push (hres : f.reserved = 0) {ps : List EthPacketData} (hpos : ∀ p ∈ ps, p.length ≠ 0)
    (hfit : f.size + (ps.map (·.length)).sum ≤ f.maxsize) :
    ∃ g, run step f (ps.map .push) = .ok g ∧
      g.fifo.map (·.packet) = f.fifo.map (·.packet) ++ ps ∧ (f.SlackFree → g.SlackFree) := by
  induction ps generalizing f with
  | nil => exact ⟨f, rfl, (List.append_nil _).symm, id⟩
  | cons p ps ih =>
    rw [List.map_cons, List.sum_cons] at hfit
    have hroom : ¬ f.avail < p.length - f.reserved := by
      rw [avail]
      omega
    have hpush := push_eq_ok.mpr ⟨hpos p List.mem_cons_self, by omega, (if_neg hroom).symm⟩
    have hstep : f.step (.push p) = .ok
        { f with
          size := f.size + p.length
          fifo := f.fifo ++ [⟨p, f.counter, 0⟩]
          counter := f.counter + 1
          reserved := 0 } := bind_eq_ok.mpr ⟨_, hpush, rfl⟩
    have hrest : f.size + p.length + (ps.map (·.length)).sum ≤ f.maxsize := by omega
    obtain ⟨g, hg, hpackets, hslack⟩ :=
      ih (f := { f with
          size := f.size + p.length
          fifo := f.fifo ++ [⟨p, f.counter, 0⟩]
          counter := f.counter + 1
          reserved := 0 }) rfl (fun q hq => hpos q (List.mem_cons_of_mem _ hq)) hrest
    refine ⟨g, ?_, ?_, fun hs => hslack fun e he => ?_⟩
    · rw [List.map_cons, run_cons_ok _ hstep, hg]
    · rw [hpackets, List.map_append, List.append_assoc]
      rfl
    · rcases List.mem_append.mp he with he | he
      · exact hs e he
      · rw [List.mem_singleton.mp he]

/-- The packet of a given length that begins with a zero and has ones behind it. -/
def marked (first : ℕ) : EthPacketData := ⟨0 :: List.replicate (first - 1) 1⟩

/-- A FIFO of packets with given lengths: the first byte of all is zero, all others are one. -/
theorem exists_marked {max first : ℕ} {rest : List ℕ} (hpos : ∀ n ∈ first :: rest, n ≠ 0)
    (hfit : (first :: rest).sum ≤ max) :
    ∃ g as, run step (new max) as = .ok g ∧ g.SlackFree ∧ g.lengths = first :: rest ∧
      g.fifo.map (·.packet) = marked first :: rest.map fun n => ⟨List.replicate n 1⟩ := by
  have hfirst : (marked first).length = first := by
    have hne := hpos first List.mem_cons_self
    simp only [EthPacketData.length, marked, List.length_cons, List.length_replicate]
    omega
  have hrest : (rest.map fun n => (⟨List.replicate n 1⟩ : EthPacketData)).map (·.length) = rest := by
    rw [List.map_map]
    exact (List.map_congr_left fun n _ => List.length_replicate).trans (List.map_id rest)
  have hall : (marked first :: rest.map fun n => ⟨List.replicate n 1⟩).map (·.length) =
      first :: rest := by
    rw [List.map_cons, hrest, hfirst]
  have hroom : (new max).size + ((marked first ::
      rest.map fun n => ⟨List.replicate n 1⟩).map (·.length)).sum ≤ (new max).maxsize := by
    rw [hall]
    exact (Nat.zero_add _).trans_le hfit
  obtain ⟨g, hg, hpackets, hslack⟩ := run_push (f := new max) rfl
    (fun p hp => hpos _ (hall ▸ List.mem_map_of_mem hp)) hroom
  refine ⟨g, _, hg, hslack fun _ he => absurd he List.not_mem_nil, ?_, hpackets⟩
  rw [← hall, ← hpackets.trans (List.nil_append _), List.map_map]
  rfl

/-- A FIFO with one zero byte, the first of all, gives away a copy of any range behind it. -/
theorem not_copies_marked {first : ℕ} {rest : List ℕ} (h : g.Sized) (hs : g.SlackFree)
    (hmarked : g.fifo.map (·.packet) = marked first :: rest.map fun n => ⟨List.replicate n 1⟩)
    (hlen : len ≠ 0) (hlt : offset + len < g.lengths.sum) (hoff : offset ≠ 0) :
    ¬ g.CopiesStream offset len := by
  intro hcopy
  have hsize := h.size_slackFree hs
  have hle := h.size_le
  rw [CopiesStream, stored_length, if_pos hlt.le] at hcopy
  have hloop := (copyout_passed ((Nat.mod_le _ _).trans_lt (by omega)) hcopy).2
  have hstored : g.stored = 0 :: (List.replicate (first - 1) 1 ++
      (rest.map fun n => List.replicate n (1 : BitVec 8)).flatten) := by
    have hdata : g.fifo.map (·.packet.data) = (g.fifo.map (·.packet)).map (·.data) := by
      rw [List.map_map]
      rfl
    rw [stored, hdata, hmarked, List.map_cons, List.map_map, List.flatten_cons]
    rfl
  -- the bytes asked for begin with a one
  have hone : ∀ b ∈ ((g.stored.drop offset).take len).head?, b = 1 := by
    intro b hb
    have hmem := List.mem_of_mem_take (List.mem_of_mem_head? hb)
    obtain ⟨k, rfl⟩ := Nat.exists_eq_succ_of_ne_zero hoff
    rw [hstored, Nat.succ_eq_add_one, List.drop_succ_cons] at hmem
    rcases List.mem_append.mp (List.mem_of_mem_drop hmem) with hb | hb
    · exact List.eq_of_mem_replicate hb
    · obtain ⟨l, hl, hb⟩ := List.mem_flatten.mp hb
      obtain ⟨n, -, rfl⟩ := List.mem_map.mp hl
      exact List.eq_of_mem_replicate hb
  -- and the bytes copied with the zero
  cases hf : g.fifo with
  | nil => rw [hf] at hmarked; cases hmarked
  | cons e i =>
    rw [hf, List.map_cons, List.cons.injEq] at hmarked
    rw [hf] at hloop
    have hhead := copyLoop_head hlen hloop
    rw [Option.getD_none, hmarked.1] at hhead
    have hzero := hone 0 hhead
    cases hzero

/-- **`copyout` copies the stream exactly when the range begins with the first byte and ends before
the last one.**  Of the FIFOs that are reached, without slack, take those whose packets have the
same lengths as those of `f`: all of them answer a request as they should exactly when the range is
`FromStart`. -/
theorem copyout_exact_iff {max : ℕ} (hmax : max < 2 ^ 32) {f : PacketFifo} {as : List Action}
    (hf : run step (new max) as = .ok f) (hs : f.SlackFree) {offset len : ℕ}
    (hoff : offset < 2 ^ 32) (hlen : len < 2 ^ 32) :
    (∀ g bs, run step (new max) bs = .ok g → g.SlackFree → g.lengths = f.lengths →
      g.CopiesStream offset len) ↔ FromStart f.lengths offset len := by
  obtain ⟨hsized, hmaxf⟩ := sized_reached hf
  have hsize := hsized.size_slackFree hs
  have hle := hsized.size_le
  constructor
  · intro hall
    have hself := hall f as hf hs rfl
    rw [CopiesStream, stored_length] at hself
    by_cases hstored : offset + len ≤ f.lengths.sum
    · left
      rw [if_pos hstored] at hself
      -- a range that ends with the last byte is refused
      have hlt : offset + len < f.lengths.sum := by
        by_contra hge
        have hnowrap : (offset + len) % 2 ^ 32 = offset + len := Nat.mod_eq_of_lt (by omega)
        rw [copyout_refused (by omega)] at hself
        cases hself
      refine ⟨hlt, ?_⟩
      by_cases hz : len = 0
      · exact .inl hz
      · right
        by_contra hne
        cases hl : f.lengths with
        | nil => rw [hl] at hlt; cases hlt
        | cons first rest =>
            rw [hl] at hlt hall hsize
            have hpos : ∀ n ∈ first :: rest, n ≠ 0 := by
              rw [← hl]
              intro n hn
              obtain ⟨e, he, rfl⟩ := List.mem_map.mp hn
              exact (hsized.positive e he).ne'
            obtain ⟨g, bs, hg, hgs, hglen, hmarked⟩ :=
              exists_marked hpos (by omega : (first :: rest).sum ≤ max)
            exact not_copies_marked (sized_reached hg).1 hgs hmarked hz (hglen ▸ hlt) hne
              (hall g bs hg hgs hglen)
    · right
      rw [if_neg hstored] at hself
      refine ⟨by omega, ?_⟩
      by_contra hwrap
      have := copyout_passed (by omega) hself
      exact absurd this.1 Bool.false_ne_true
  · intro hin g bs hg hgs hlengths
    obtain ⟨hgsized, hmaxg⟩ := sized_reached hg
    exact copies_of_fromStart hgsized hgs (hmaxg ▸ hmax) (hlengths ▸ hin)

/-- Two packets of three and two bytes: a request for three bytes from offset 1 is given the first
two bytes and the fourth, one for the one byte at offset 3 the first byte of all, and one for all
five bytes is refused. -/
theorem offset_not_copied :
    ∃ f, run step (new 16) [.push ⟨[1, 2, 3]⟩, .push ⟨[4, 5]⟩] = .ok f ∧
      ((∀ e ∈ f.fifo, e.slack = 0) ∧ f.stored = [1, 2, 3, 4, 5] ∧
        (f.copyout 1 3 = .ok (true, [1, 2, 4]) ∧ ¬ f.CopiesStream 1 3) ∧
        (f.copyout 3 1 = .ok (true, [1]) ∧ ¬ f.CopiesStream 3 1) ∧
        (f.copyout 0 5 = .ok (false, []) ∧ ¬ f.CopiesStream 0 5)) := by
  decide +kernel

theorem copyout_exact_iff_two_packets :
    ∃ f, run step (new 16) [.push ⟨[1, 2, 3]⟩, .push ⟨[4, 5]⟩] = .ok f ∧
      ((∀ g bs, run step (new 16) bs = .ok g → g.SlackFree → g.lengths = f.lengths →
        g.CopiesStream 0 4) ↔ FromStart f.lengths 0 4) := by
  obtain ⟨f, hf, hs⟩ : ∃ f, run step (new 16) [.push ⟨[1, 2, 3]⟩, .push ⟨[4, 5]⟩] = .ok f ∧
      ∀ e ∈ f.fifo, e.slack = 0 := by decide +kernel
  exact ⟨f, hf, copyout_exact_iff (by decide) hf hs (by decide) (by decide)⟩

end PacketFifo

end Gem5.Ethernet
