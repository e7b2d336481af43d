/-
# Replaying a packet trace

Embedding of `LoadGeneratorPcap::buildEthernetHeader` and of the part of
`LoadGeneratorPcap::sendPacket` (`dev/net/load_generator_pcap.cc`) that turns a record of the trace
into a frame.  Reads of the record and writes to the packet are checked against their lengths, so
that an access outside them is a fault.

A record is replayed as the claim of such a generator has it exactly when it is long enough for
every field that is looked at before it is skipped, and no longer than its own Ethernet and IP
headers say (`replay_safe_iff`): a short datagram that was padded to the least length of an Ethernet
frame stops the simulator (`padded_datagram`).
-/
import Gem5.Runs

namespace Gem5.LoadGen

open Runs

/-! ## Records and packets -/

/-- A record of the trace, as `pcap_next_ex` returns it: `caplen` bytes were captured of a packet of
`len` bytes. -/
structure Record where
  len : ℕ
  caplen : ℕ
  data : List UInt8
  length_data : data.length = caplen
  len_lt : len < 2 ^ 32

/-- `StackMode` -/
inductive StackMode where
  | Kernel
  | DPDK
  deriving DecidableEq, Repr

structure PcapParams where
  loadgenId : UInt8
  stackMode : StackMode
  maxPcktSize : ℕ
  portFilter : ℕ

inductive PcapFault where
  /-- a byte behind the record is read -/
  | outsideRecord
  /-- a byte behind the packet is written -/
  | outsidePacket
  /-- `assert(pcap_header->len == ntohs(iph->ip_len) + kEtherHeaderSize)` -/
  | ipLength
  deriving DecidableEq, Repr

/-- One byte of the record. -/
def readByte (data : List UInt8) (i : ℕ) : Except PcapFault ℕ :=
  match data[i]? with
  | some b => .ok b.toNat
  | none => .error .outsideRecord

/-- `ntohs` of the two bytes of the record at `i`. -/
def read16 (data : List UInt8) (i : ℕ) : Except PcapFault ℕ := do
  let hi ← readByte data i
  let lo ← readByte data (i + 1)
  return 256 * hi + lo

/-- `memcpy` of bytes to the packet. -/
def writeBytes (packet : List UInt8) (i : ℕ) (bytes : List UInt8) :
    Except PcapFault (List UInt8) :=
  if i + bytes.length ≤ packet.length then
    .ok (packet.take i ++ bytes ++ packet.drop (i + bytes.length))
  else .error .outsidePacket

/-- `memcpy` of `n` bytes of the record from `i` on to the packet. -/
def copyFrom (data : List UInt8) (i n : ℕ) (packet : List UInt8) (j : ℕ) :
    Except PcapFault (List UInt8) :=
  if i + n ≤ data.length then writeBytes packet j ((data.drop i).take n)
  else .error .outsideRecord

/-! ## Replay -/

def kEtherHeaderSize : ℕ := 14

def ETHERTYPE_IP : ℕ := 0x0800

def IPPROTO_UDP : ℕ := 17

/-- The bytes of `head` in `buildEthernetHeader`: the addresses of the paired NIC and of the
generator, and the type. -/
def head (p : PcapParams) : List UInt8 :=
  [0x00, 0x90, 0x00, 0x00, 0x00, 0x01 + p.loadgenId] ++
    [0x00, 0x80, 0x00, 0x00, 0x00, 0x01 + p.loadgenId] ++ [0x08, 0x00]

/-- `LoadGeneratorPcap::buildEthernetHeader` -/
def buildEthernetHeader (p : PcapParams) (ethpacket : List UInt8) :
    Except PcapFault (List UInt8) :=
  writeBytes ethpacket 0 (head p)

/-- What becomes of a record. -/
inductive Outcome where
  | skipped
  | sent (txPacket : List UInt8)
  deriving DecidableEq, Repr

/-- The packet for the kernel stack, after the checks of its headers. -/
def replayKernel (p : PcapParams) (r : Record) (txPacket : List UInt8) :
    Except PcapFault Outcome := do
  let ether_type ← read16 r.data 12
  if ether_type ≠ ETHERTYPE_IP then return .skipped
  else
    let iph := kEtherHeaderSize
    let vhl ← readByte r.data iph
    if vhl / 16 ≠ 4 then return .skipped
    else
      let ip_p ← readByte r.data (iph + 9)
      if ip_p ≠ IPPROTO_UDP then return .skipped
      else
        let udp := iph + 4 * (vhl % 16)
        let uh_dport ← read16 r.data (udp + 2)
        if uh_dport ≠ p.portFilter then return .skipped
        else
          let ip_len ← read16 r.data (iph + 2)
          require .ipLength (r.len = ip_len + kEtherHeaderSize)
          let txPacket ← buildEthernetHeader p txPacket
          let txPacket ← copyFrom r.data iph ip_len txPacket kEtherHeaderSize
          return .sent txPacket

/-- The packet for the DPDK stack. -/
def replayDPDK (p : PcapParams) (r : Record) (txPacket : List UInt8) :
    Except PcapFault Outcome := do
  let txPacket ← buildEthernetHeader p txPacket
  -- the difference of two unsigned numbers
  let n := (r.len + (2 ^ 32 - kEtherHeaderSize)) % 2 ^ 32
  let txPacket ← copyFrom r.data kEtherHeaderSize n txPacket kEtherHeaderSize
  return .sent txPacket

/-- `LoadGeneratorPcap::sendPacket` on a record; `uninit` are the bytes of a new packet. -/
def replay (p : PcapParams) (uninit : ℕ → UInt8) (r : Record) : Except PcapFault Outcome :=
  if r.len ≠ r.caplen then .ok .skipped
  else if p.maxPcktSize < r.len then .ok .skipped
  else
    let txPacket := (List.range r.len).map uninit
    match p.stackMode with
    | .Kernel => replayKernel p r txPacket
    | .DPDK => replayDPDK p r txPacket

/-! ## What a replay should be -/

variable {p : PcapParams} {r : Record}

namespace Record

/-- A byte of the record, and two of them in network order. -/
def byteAt (r : Record) (i : ℕ) : ℕ := (r.data.getD i 0).toNat

def halfAt (r : Record) (i : ℕ) : ℕ := 256 * r.byteAt i + r.byteAt (i + 1)

end Record

/-- A record is skipped, or sent with a new header and the rest of its bytes. -/
def Faithful (p : PcapParams) (r : Record) (x : Except PcapFault Outcome) : Prop :=
  ∃ o, x = .ok o ∧ ∀ txPacket, o = .sent txPacket →
    txPacket.length = r.len ∧ txPacket = head p ++ r.data.drop kEtherHeaderSize

theorem faithful_skipped : Faithful p r (.ok .skipped) := ⟨_, rfl, nofun⟩

theorem not_faithful_error (e : PcapFault) : ¬Faithful p r (.error e) := fun ⟨_, h, _⟩ => nomatch h

/-- A byte can be read inside the record. -/
theorem faithful_readByte {i : ℕ} {f : ℕ → Except PcapFault Outcome} :
    Faithful p r (readByte r.data i >>= f) ↔ i < r.caplen ∧ Faithful p r (f (r.byteAt i)) := by
  rw [← r.length_data, Record.byteAt]
  unfold readByte
  by_cases hi : i < r.data.length
  · rw [List.getElem?_eq_getElem hi, List.getD_eq_getElem _ _ hi, and_iff_right hi]
    rfl
  · rw [List.getElem?_eq_none (Nat.le_of_not_lt hi)]
    exact iff_of_false (not_faithful_error _) fun h => hi h.1

theorem faithful_read16 {i : ℕ} {f : ℕ → Except PcapFault Outcome} :
    Faithful p r (read16 r.data i >>= f) ↔ i + 1 < r.caplen ∧ Faithful p r (f (r.halfAt i)) := by
  have hassoc : read16 r.data i >>= f = readByte r.data i >>= fun hi =>
      readByte r.data (i + 1) >>= fun lo => f (256 * hi + lo) := by
    unfold read16
    simp only [bind_assoc, pure_bind]
  rw [hassoc, faithful_readByte, faithful_readByte]
  exact ⟨fun h => h.2, fun h => ⟨Nat.lt_of_succ_lt h.1, h⟩⟩

theorem length_head : (head p).length = kEtherHeaderSize := rfl

/-- A packet as long as the record gets the header and the rest of the record. -/
theorem fill_eq {txPacket : List UInt8} {n : ℕ} (hlen : txPacket.length = r.len)
    (hcap : r.len = r.caplen) (hn : r.len = n + kEtherHeaderSize) :
    (do
      let txPacket ← buildEthernetHeader p txPacket
      let txPacket ← copyFrom r.data kEtherHeaderSize n txPacket kEtherHeaderSize
      return .sent txPacket : Except PcapFault Outcome) =
        .ok (.sent (head p ++ r.data.drop kEtherHeaderSize)) := by
  have hdata : r.data.length = n + kEtherHeaderSize := by rw [r.length_data, ← hcap, hn]
  have hhead : buildEthernetHeader p txPacket =
      .ok (head p ++ txPacket.drop kEtherHeaderSize) := by
    rw [buildEthernetHeader, writeBytes, length_head, if_pos (by omega)]
    simp
  have hrest : (r.data.drop kEtherHeaderSize).take n = r.data.drop kEtherHeaderSize :=
    List.take_of_length_le (by rw [List.length_drop, hdata, Nat.add_sub_cancel])
  have hcopy : copyFrom r.data kEtherHeaderSize n (head p ++ txPacket.drop kEtherHeaderSize)
      kEtherHeaderSize = .ok (head p ++ r.data.drop kEtherHeaderSize) := by
    have hlength : (head p ++ txPacket.drop kEtherHeaderSize).length = n + kEtherHeaderSize := by
      rw [List.length_append, length_head, List.length_drop]
      omega
    have hrestLength : (r.data.drop kEtherHeaderSize).length = n := by
      rw [List.length_drop, hdata, Nat.add_sub_cancel]
    have hend : (head p ++ txPacket.drop kEtherHeaderSize).drop (kEtherHeaderSize + n) = [] :=
      List.drop_of_length_le (by omega)
    rw [copyFrom, if_pos (by omega), hrest, writeBytes, hrestLength, if_pos (by omega),
      List.take_left' length_head, hend, List.append_nil]
  rw [hhead]
  show (copyFrom r.data kEtherHeaderSize n (head p ++ txPacket.drop kEtherHeaderSize)
    kEtherHeaderSize >>= _) = _
  rw [hcopy]
  rfl

theorem faithful_fill {txPacket : List UInt8} {n : ℕ} (hlen : txPacket.length = r.len)
    (hcap : r.len = r.caplen) (hn : r.len = n + kEtherHeaderSize) :
    Faithful p r (do
      let txPacket ← buildEthernetHeader p txPacket
      let txPacket ← copyFrom r.data kEtherHeaderSize n txPacket kEtherHeaderSize
      return .sent txPacket) := by
  refine ⟨_, fill_eq hlen hcap hn, fun frame hframe => ?_⟩
  cases hframe
  refine ⟨?_, rfl⟩
  rw [List.length_append, length_head, List.length_drop, r.length_data]
  omega

/-- **The records that are handled**: they are skipped at once, or every field that is looked at is
inside them, and a datagram that is sent ends where its IP header says. -/
def Handled (p : PcapParams) (r : Record) : Prop :=
  r.len ≠ r.caplen ∨ p.maxPcktSize < r.len ∨
  match p.stackMode with
  | .DPDK => 14 ≤ r.len
  | .Kernel => 14 ≤ r.len ∧ (r.halfAt 12 ≠ ETHERTYPE_IP ∨
      15 ≤ r.len ∧ (r.byteAt 14 / 16 ≠ 4 ∨
      24 ≤ r.len ∧ (r.byteAt 23 ≠ IPPROTO_UDP ∨
      18 + 4 * (r.byteAt 14 % 16) ≤ r.len ∧
        (r.halfAt (16 + 4 * (r.byteAt 14 % 16)) ≠ p.portFilter ∨ r.len = r.halfAt 16 + 14))))

/-- A check that skips the record. -/
theorem faithful_check {c : Prop} [Decidable c] {x : Except PcapFault Outcome} :
    Faithful p r (if c then pure .skipped else x) ↔ c ∨ Faithful p r x := by
  by_cases hc : c
  · rw [if_pos hc]
    exact iff_of_true faithful_skipped (.inl hc)
  · rw [if_neg hc, or_iff_right hc]

theorem faithful_require {e : PcapFault} {b : Bool} {f : Unit → Except PcapFault Outcome} :
    Faithful p r (require e b >>= f) ↔ b = true ∧ Faithful p r (f ()) := by
  cases b with
  | true => exact (and_iff_right rfl).symm
  | false => exact iff_of_false (not_faithful_error e) fun h => Bool.false_ne_true h.1

theorem faithful_kernel {txPacket : List UInt8} (hlen : txPacket.length = r.len)
    (hcap : r.len = r.caplen) : Faithful p r (replayKernel p r txPacket) ↔
      14 ≤ r.len ∧ (r.halfAt 12 ≠ ETHERTYPE_IP ∨
      15 ≤ r.len ∧ (r.byteAt 14 / 16 ≠ 4 ∨
      24 ≤ r.len ∧ (r.byteAt 23 ≠ IPPROTO_UDP ∨
      18 + 4 * (r.byteAt 14 % 16) ≤ r.len ∧
        (r.halfAt (16 + 4 * (r.byteAt 14 % 16)) ≠ p.portFilter ∨ r.len = r.halfAt 16 + 14)))) := by
  have hudp : kEtherHeaderSize + 4 * (r.byteAt 14 % 16) + 2 = 16 + 4 * (r.byteAt 14 % 16) := by
    simp only [kEtherHeaderSize]
    omega
  have hproto : kEtherHeaderSize + 9 < r.caplen ↔ 24 ≤ r.len := by
    rw [hcap]
    exact Iff.rfl
  unfold replayKernel
  rw [faithful_read16, faithful_check, faithful_readByte, faithful_check, faithful_readByte,
    faithful_check, faithful_read16, faithful_check, faithful_read16, faithful_require, hproto]
  refine and_congr (by omega) (or_congr_right (and_congr (hcap ▸ Iff.rfl) (or_congr_right
    (and_congr_right fun hlong => or_congr_right ?_))))
  show kEtherHeaderSize + 4 * (r.byteAt 14 % 16) + 2 + 1 < r.caplen ∧
    (r.halfAt (kEtherHeaderSize + 4 * (r.byteAt 14 % 16) + 2) ≠ p.portFilter ∨ _) ↔ _
  rw [hudp]
  refine and_congr (by omega) (or_congr_right ⟨fun h => of_decide_eq_true h.2.1, fun h => ?_⟩)
  exact ⟨by simp only [kEtherHeaderSize]; omega, decide_eq_true h, faithful_fill hlen hcap h⟩

theorem faithful_dpdk {txPacket : List UInt8} (hlen : txPacket.length = r.len)
    (hcap : r.len = r.caplen) : Faithful p r (replayDPDK p r txPacket) ↔ 14 ≤ r.len := by
  constructor
  · intro h
    by_contra hshort
    have hhead : buildEthernetHeader p txPacket = .error .outsidePacket := by
      rw [buildEthernetHeader, writeBytes, length_head, if_neg]
      rw [hlen, kEtherHeaderSize]
      omega
    rw [replayDPDK, hhead] at h
    exact not_faithful_error _ h
  · intro hlong
    have hlt := r.len_lt
    refine faithful_fill hlen hcap ?_
    simp only [kEtherHeaderSize]
    omega

/-- **Replaying a record.**  It is read inside its bounds, the packet is written inside its bounds,
no assertion fails, and what is sent is as long as the record and has its bytes behind a new header,
exactly when the record is one that is handled. -/
theorem replay_safe_iff (p : PcapParams) (uninit : ℕ → UInt8) (r : Record) :
    (∃ o, replay p uninit r = .ok o ∧ ∀ txPacket, o = .sent txPacket →
      txPacket.length = r.len ∧ txPacket = head p ++ r.data.drop kEtherHeaderSize) ↔
    Handled p r := by
  show Faithful p r (replay p uninit r) ↔ _
  unfold replay Handled
  by_cases hcap : r.len = r.caplen
  · rw [if_neg (not_not.mpr hcap), or_iff_right (not_not.mpr hcap)]
    have hlen : ((List.range r.len).map uninit).length = r.len := by
      rw [List.length_map, List.length_range]
    refine faithful_check.trans (or_congr_right ?_)
    cases p.stackMode with
    | Kernel => exact faithful_kernel hlen hcap
    | DPDK => exact faithful_dpdk hlen hcap
  · rw [if_pos hcap]
    exact iff_of_true faithful_skipped (.inl hcap)

/-- A frame of the least length with a datagram of one byte to port 11211, and padding. -/
def padded : Record where
  len := 60
  caplen := 60
  data := List.replicate 12 0 ++ [0x08, 0x00] ++
    [0x45, 0, 0, 29, 0, 0, 0, 0, 64, 17, 0, 0, 10, 0, 0, 1, 10, 0, 0, 2] ++
    [0, 7, 0x2b, 0xcb, 0, 9, 0, 0] ++ List.replicate 18 0
  length_data := by decide
  len_lt := by decide

/-- **A padded datagram stops the simulator.** -/
theorem padded_datagram :
    replay ⟨0, .Kernel, 1500, 11211⟩ (fun _ => 0) padded = .error .ipLength := by
  decide

end Gem5.LoadGen
