/-
# The address mappings of a DRAM channel

Embedding of the constructors and `init` of the DRAM interface, as far as they set and check the
geometry of a channel, and of `MemInterface::decodePacket` (`mem/mem_interface.cc`).

The parameters are 32-bit numbers, and so are the products of them that the constructors compute;
`rowsPerBank` is a 64-bit quotient that is stored in 32 bits.  A division by zero stops the
simulator.  The size of a device is only compared for a warning.
-/
import Gem5.AddrRange
import Gem5.FALRU
import Gem5.MixedRadix

open Runs

namespace Gem5.Mem

open Base

/-- `enums::AddrMap` -/
inductive AddrMap where
  | RoRaBaChCo
  | RoRaBaCoCh
  | RoCoRaBaCh
  deriving DecidableEq, Repr

/-- The parameters that the constructors check. -/
structure DRAMInterfaceParams where
  addr_mapping : AddrMap
  device_bus_width : BitVec 32
  burst_length : BitVec 32
  device_rowbuffer_size : BitVec 32
  devices_per_rank : BitVec 32
  ranks_per_channel : BitVec 32
  banks_per_rank : BitVec 32
  bank_groups_per_rank : BitVec 32
  tREFI : ℕ
  tRP : ℕ
  tRFC : ℕ
  tBURST : ℕ
  tCCD_L : ℕ
  tCCD_L_WR : ℕ
  tRRD : ℕ
  tRRD_L : ℕ
  range : AddrRange

/-- What stops the constructors, `init` and `decodePacket`. -/
inductive DRAMFail where
  | divisionByZero
  /-- a function of the address range -/
  | range (e : Fail)
  /-- the memory range is empty or larger than a 64-bit number holds when rounded up -/
  | noSize
  | undefinedShift
  /-- "DRAM burst size %d is not allowed, must be a power of two" -/
  | burstSize
  /-- "DRAM rank count of %d is not allowed, must be a power of two" -/
  | rankCount
  /-- "tREFI (%d) must be larger than tRP (%d) and tRFC (%d)" -/
  | tREFI
  /-- the bank group architecture checks -/
  | bankGroups
  /-- "Channel interleaving of %s doesn't match RoRaBaChCo address map" -/
  | interleavingMismatch
  /-- `assert(burstsPerStripe >= 1)` -/
  | noBurstInStripe
  /-- "Channel interleaving of %s must be at least as large as the cache line size" -/
  | belowCacheLine
  /-- "Channel interleaving of %s must be at most as large as the row-buffer size" -/
  | aboveRowBuffer
  /-- `assert(burstsPerStripe <= burstsPerRowBuffer)` -/
  | stripeAboveRowBuffer
  /-- the assertions of `decodePacket` -/
  | rank
  | bank
  | row
  | noRow
  deriving DecidableEq, Repr

/-- The geometry of a channel. -/
structure DRAMInterface where
  addrMapping : AddrMap
  burstSize : ℕ
  rowBufferSize : ℕ
  burstsPerRowBuffer : ℕ
  burstsPerStripe : ℕ
  ranksPerChannel : ℕ
  banksPerRank : ℕ
  rowsPerBank : ℕ
  range : AddrRange
  deriving DecidableEq, Repr

namespace DRAMInterface

/-- Integer division. -/
def divide (a b : ℕ) : Except DRAMFail ℕ := if b = 0 then .error .divisionByZero else .ok (a / b)

/-- `%` -/
def modulo (a b : ℕ) : Except DRAMFail ℕ := if b = 0 then .error .divisionByZero else .ok (a % b)

/-! ## Construction -/

/-- `ceilLog2(n)` -/
def ceilLog2 (n : ℕ) : ℕ := if n = 1 then 0 else Nat.log2 (n - 1) + 1

/-- `1ULL << ceilLog2(AbstractMemory::size())` -/
def capacity (range : AddrRange) : Except DRAMFail ℕ := do
  let size ← range.size.mapError .range
  require .noSize (size ≠ 0)
  require .undefinedShift (ceilLog2 size.toNat < 64)
  return 2 ^ ceilLog2 size.toNat

/-- `burstsPerStripe` -/
def stripe (range : AddrRange) (burstSize : ℕ) : Except DRAMFail ℕ :=
  if range.interleaved then do
    let granularity ← range.granularity.mapError .range
    let bursts ← divide granularity.toNat burstSize
    return bursts % 2 ^ 32
  else .ok 1

/-- The checks of a bank group architecture. -/
def checkBankGroups (p : DRAMInterfaceParams) : Except DRAMFail Unit :=
  if 0 < p.bank_groups_per_rank then do
    require .bankGroups (p.bank_groups_per_rank ≤ p.banks_per_rank)
    require .bankGroups (p.banks_per_rank % p.bank_groups_per_rank = 0)
    require .bankGroups (p.tBURST < p.tCCD_L)
    require .bankGroups (p.tBURST < p.tCCD_L_WR)
    require .bankGroups (p.tRRD ≤ p.tRRD_L)
  else .ok ()

/-- `DRAMInterface(_p)`, with the constructor of `MemInterface`. -/
def new (p : DRAMInterfaceParams) : Except DRAMFail DRAMInterface := do
  let burstSize := (p.devices_per_rank * p.burst_length * p.device_bus_width).toNat / 8
  let rowBufferSize := (p.devices_per_rank * p.device_rowbuffer_size).toNat
  let burstsPerRowBuffer ← divide rowBufferSize burstSize
  let burstsPerStripe ← stripe p.range burstSize
  require .burstSize (FALRU.isPowerOf2 burstSize)
  require .rankCount (FALRU.isPowerOf2 p.ranks_per_channel.toNat)
  let capacity ← capacity p.range
  let rowsPerBank ← divide capacity
    (p.devices_per_rank * p.device_rowbuffer_size * p.banks_per_rank * p.ranks_per_channel).toNat
  require .tREFI (p.tRP < p.tREFI && p.tRFC < p.tREFI)
  checkBankGroups p
  return {
    addrMapping := p.addr_mapping
    burstSize := burstSize
    rowBufferSize := rowBufferSize
    burstsPerRowBuffer := burstsPerRowBuffer
    burstsPerStripe := burstsPerStripe
    ranksPerChannel := p.ranks_per_channel.toNat
    banksPerRank := p.banks_per_rank.toNat
    rowsPerBank := rowsPerBank % 2 ^ 32
    range := p.range }

/-- `init()`, in a system with the given size of a cache line. -/
def init (d : DRAMInterface) (cacheLineSize : ℕ) : Except DRAMFail Unit :=
  if d.range.interleaved then do
    let granularity ← d.range.granularity.mapError .range
    match d.addrMapping with
    | .RoRaBaChCo => require .interleavingMismatch (d.rowBufferSize = granularity.toNat)
    | .RoRaBaCoCh | .RoCoRaBaCh =>
        require .noBurstInStripe (1 ≤ d.burstsPerStripe)
        require .belowCacheLine (cacheLineSize ≤ granularity.toNat)
        require .aboveRowBuffer (granularity.toNat ≤ d.rowBufferSize)
        require .stripeAboveRowBuffer (d.burstsPerStripe ≤ d.burstsPerRowBuffer)
  else .ok ()

/-! ## Decoding -/

/-- The decoded fields of a `MemPacket`. -/
structure Decoded where
  rank : ℕ
  bank : ℕ
  row : ℕ
  bankId : ℕ
  deriving DecidableEq, Repr

/-- `range.getOffset(addr)` -/
def getOffset (range : AddrRange) (a : Addr) : Addr :=
  if range.start ≤ a ∧ a < range.end_ then
    range.removeIntlvBits a - range.removeIntlvBits range.start
  else BitVec.allOnes 64

/-- `getCtrlAddr(addr)` -/
def getCtrlAddr (d : DRAMInterface) (a : Addr) : Addr := getOffset d.range a

/-- What `decodePacket` takes off the number of a burst before the bank. -/
def dropLowColumn (d : DRAMInterface) (addr : ℕ) : Except DRAMFail ℕ :=
  match d.addrMapping with
  | .RoRaBaChCo | .RoRaBaCoCh => divide addr d.burstsPerRowBuffer
  | .RoCoRaBaCh =>
      if d.burstsPerStripe > d.burstsPerRowBuffer then divide addr d.burstsPerRowBuffer
      else divide addr d.burstsPerStripe

/-- What it takes off behind the rank. -/
def dropHighColumn (d : DRAMInterface) (addr : ℕ) : Except DRAMFail ℕ :=
  match d.addrMapping with
  | .RoRaBaChCo | .RoRaBaCoCh => .ok addr
  | .RoCoRaBaCh =>
      if d.burstsPerStripe < d.burstsPerRowBuffer then do
        let columns ← divide d.burstsPerRowBuffer d.burstsPerStripe
        divide addr columns
      else .ok addr

/-- `decodePacket`, from the address in the channel.  `rank` and `bank` are 8 bits wide, the number
of a bank 16. -/
def decodeAddr (d : DRAMInterface) (addr : ℕ) : Except DRAMFail Decoded := do
  let addr ← divide addr d.burstSize
  let addr ← d.dropLowColumn addr
  let bank ← modulo addr d.banksPerRank
  let bank := bank % 2 ^ 8
  let addr ← divide addr d.banksPerRank
  let rank ← modulo addr d.ranksPerChannel
  let rank := rank % 2 ^ 8
  let addr ← divide addr d.ranksPerChannel
  let addr ← d.dropHighColumn addr
  let row ← modulo addr d.rowsPerBank
  require .rank (rank < d.ranksPerChannel)
  require .bank (bank < d.banksPerRank)
  require .row (row < d.rowsPerBank)
  require .noRow (row < 2 ^ 32 - 1)
  return ⟨rank, bank, row, (d.banksPerRank * rank + bank) % 2 ^ 16⟩

/-- `decodePacket(pkt_addr)` -/
def decodePacket (d : DRAMInterface) (pkt_addr : Addr) : Except DRAMFail Decoded :=
  d.decodeAddr (d.getCtrlAddr pkt_addr).toNat

/-! ## The digits of an address -/

/-- The divisor below the bank. -/
def lowColumns (d : DRAMInterface) : ℕ :=
  match d.addrMapping with
  | .RoRaBaChCo | .RoRaBaCoCh => d.burstsPerRowBuffer
  | .RoCoRaBaCh =>
      if d.burstsPerStripe > d.burstsPerRowBuffer then d.burstsPerRowBuffer else d.burstsPerStripe

/-- The divisor behind the rank. -/
def highColumns (d : DRAMInterface) : ℕ :=
  match d.addrMapping with
  | .RoRaBaChCo | .RoRaBaCoCh => 1
  | .RoCoRaBaCh =>
      if d.burstsPerStripe < d.burstsPerRowBuffer then d.burstsPerRowBuffer / d.burstsPerStripe
      else 1

theorem divide_ok {a b : ℕ} (h : 0 < b) : divide a b = .ok (a / b) := if_neg h.ne'

theorem modulo_ok {a b : ℕ} (h : 0 < b) : modulo a b = .ok (a % b) := if_neg h.ne'

theorem divide_eq {a b c : ℕ} (h : divide a b = .ok c) : b ≠ 0 ∧ c = a / b := by
  unfold divide at h
  split_ifs at h with hb
  exact ⟨hb, (Except.ok.inj h).symm⟩

theorem modulo_pos {a b c : ℕ} (h : modulo a b = .ok c) : 0 < b := by
  unfold modulo at h
  split_ifs at h with hb
  exact Nat.pos_of_ne_zero hb

/-- A geometry whose digits make up the capacity. -/
structure Sound (d : DRAMInterface) (cap : ℕ) : Prop where
  burstSize : 0 < d.burstSize
  low : 0 < d.lowColumns
  high : 0 < d.highColumns
  columns : d.lowColumns * d.highColumns = d.burstsPerRowBuffer
  banks : 0 < d.banksPerRank
  banks_le : d.banksPerRank ≤ 256
  ranks : 0 < d.ranksPerChannel
  ranks_le : d.ranksPerChannel ≤ 256
  rows : 0 < d.rowsPerBank
  rows_lt : d.rowsPerBank < 2 ^ 32
  bursts : cap / d.burstSize =
    d.lowColumns * (d.banksPerRank * (d.ranksPerChannel * (d.highColumns * d.rowsPerBank)))

variable {d : DRAMInterface} {cap : ℕ} {p : DRAMInterfaceParams}

theorem dropLowColumn_ok (h : 0 < d.lowColumns) (addr : ℕ) :
    d.dropLowColumn addr = .ok (addr / d.lowColumns) := by
  revert h
  unfold lowColumns dropLowColumn
  cases d.addrMapping with
  | RoRaBaChCo => exact divide_ok
  | RoRaBaCoCh => exact divide_ok
  | RoCoRaBaCh =>
    dsimp only
    split_ifs
    · exact divide_ok
    · exact divide_ok

theorem dropHighColumn_ok (h : 0 < d.highColumns) (addr : ℕ) :
    d.dropHighColumn addr = .ok (addr / d.highColumns) := by
  revert h
  unfold highColumns dropHighColumn
  cases d.addrMapping with
  | RoRaBaChCo => exact fun _ => congrArg _ (Nat.div_one addr).symm
  | RoRaBaCoCh => exact fun _ => congrArg _ (Nat.div_one addr).symm
  | RoCoRaBaCh =>
    dsimp only
    split_ifs
    · intro h
      have hpos : 0 < d.burstsPerStripe := by
        refine Nat.pos_of_ne_zero fun hzero => ?_
        rw [hzero, Nat.div_zero] at h
        exact absurd h (lt_irrefl 0)
      rw [divide_ok hpos]
      exact divide_ok h
    · exact fun _ => congrArg _ (Nat.div_one addr).symm

/-- **The digits.**  What `decodePacket` finds in an address of the channel. -/
theorem decodeAddr_eq (h : Sound d cap) (addr : ℕ) :
    d.decodeAddr addr = .ok
      { rank := addr / d.burstSize / d.lowColumns / d.banksPerRank % d.ranksPerChannel
        bank := addr / d.burstSize / d.lowColumns % d.banksPerRank
        row := addr / d.burstSize / d.lowColumns / d.banksPerRank / d.ranksPerChannel /
          d.highColumns % d.rowsPerBank
        bankId := d.banksPerRank *
            (addr / d.burstSize / d.lowColumns / d.banksPerRank % d.ranksPerChannel) +
          addr / d.burstSize / d.lowColumns % d.banksPerRank } := by
  have hbank : addr / d.burstSize / d.lowColumns % d.banksPerRank < d.banksPerRank :=
    Nat.mod_lt _ h.banks
  have hrank : addr / d.burstSize / d.lowColumns / d.banksPerRank % d.ranksPerChannel <
      d.ranksPerChannel := Nat.mod_lt _ h.ranks
  have hrow : addr / d.burstSize / d.lowColumns / d.banksPerRank / d.ranksPerChannel /
      d.highColumns % d.rowsPerBank < d.rowsPerBank := Nat.mod_lt _ h.rows
  have hbanks := h.banks_le
  have hranks := h.ranks_le
  have hrows := h.rows_lt
  unfold decodeAddr
  simp only [divide_ok h.burstSize, dropLowColumn_ok h.low, modulo_ok h.banks, divide_ok h.banks,
    modulo_ok h.ranks, divide_ok h.ranks, dropHighColumn_ok h.high, modulo_ok h.rows, bind,
    Except.bind]
  rw [Nat.mod_eq_of_lt (hbank.trans_le hbanks : _ < 2 ^ 8),
    Nat.mod_eq_of_lt (hrank.trans_le hranks : _ < 2 ^ 8), require_ok (decide_eq_true hrank),
    require_ok (decide_eq_true hbank), require_ok (decide_eq_true hrow),
    require_ok (decide_eq_true (by omega))]
  have hid : d.banksPerRank *
      (addr / d.burstSize / d.lowColumns / d.banksPerRank % d.ranksPerChannel) +
        addr / d.burstSize / d.lowColumns % d.banksPerRank < 2 ^ 16 := by
    generalize addr / d.burstSize / d.lowColumns / d.banksPerRank % d.ranksPerChannel = rank
      at hrank
    generalize addr / d.burstSize / d.lowColumns % d.banksPerRank = bank at hbank
    have hmul : d.banksPerRank * rank ≤ 256 * 255 := Nat.mul_le_mul hbanks (by omega)
    omega
  rw [Nat.mod_eq_of_lt hid]
  rfl

/-! ## The bijection -/

/-- Rank, bank and row of a burst of the channel. -/
def tripleOf (d : DRAMInterface) (burst : ℕ) : Except DRAMFail (ℕ × ℕ × ℕ) :=
  (d.decodeAddr (burst * d.burstSize)).map fun x => (x.rank, x.bank, x.row)

/-- **What the decoding is to do.**  The assertions hold for every address, the addresses of a burst
are decoded alike, each rank, bank and row gets the bursts of a row buffer, and the number of a bank
tells its rank. -/
structure Decodes (d : DRAMInterface) (cap : ℕ) : Prop where
  asserts : ∀ pkt_addr, ∃ x, d.decodePacket pkt_addr = .ok x
  burst : ∀ a b, (d.getCtrlAddr a).toNat / d.burstSize = (d.getCtrlAddr b).toNat / d.burstSize →
    d.decodePacket a = d.decodePacket b
  count : ∀ rank bank row, rank < d.ranksPerChannel → bank < d.banksPerRank →
    row < d.rowsPerBank →
      (MixedRadix.below (cap / d.burstSize) fun b => d.tripleOf b = .ok (rank, bank, row)).card =
        d.burstsPerRowBuffer
  bankId : ∀ a b x y, d.decodePacket a = .ok x → d.decodePacket b = .ok y →
    x.bankId = y.bankId → x.rank = y.rank ∧ x.bank = y.bank

theorem tripleOf_eq_iff (h : Sound d cap) (b rank bank row : ℕ) :
    d.tripleOf b = .ok (rank, bank, row) ↔
      b / d.lowColumns % d.banksPerRank = bank ∧
        b / d.lowColumns / d.banksPerRank % d.ranksPerChannel = rank ∧
          b / d.lowColumns / d.banksPerRank / d.ranksPerChannel / d.highColumns %
            d.rowsPerBank = row := by
  unfold tripleOf
  rw [decodeAddr_eq h, Nat.mul_div_cancel _ h.burstSize]
  show Except.ok _ = Except.ok _ ↔ _
  rw [Except.ok.injEq, Prod.mk.injEq, Prod.mk.injEq]
  exact ⟨fun ⟨hrank, hbank, hrow⟩ => ⟨hbank, hrank, hrow⟩,
    fun ⟨hbank, hrank, hrow⟩ => ⟨hrank, hbank, hrow⟩⟩

/-- The digits are counted one after the other. -/
theorem card_tripleOf (h : Sound d cap) {rank bank row : ℕ} (hrank : rank < d.ranksPerChannel)
    (hbank : bank < d.banksPerRank) (hrow : row < d.rowsPerBank) :
    (MixedRadix.below (cap / d.burstSize) fun b => d.tripleOf b = .ok (rank, bank, row)).card =
      d.burstsPerRowBuffer := by
  have hdigits : (MixedRadix.below (cap / d.burstSize) fun b =>
      d.tripleOf b = .ok (rank, bank, row)) =
        MixedRadix.below (cap / d.burstSize) fun b =>
          b / d.lowColumns % d.banksPerRank = bank ∧
            b / d.lowColumns / d.banksPerRank % d.ranksPerChannel = rank ∧
              b / d.lowColumns / d.banksPerRank / d.ranksPerChannel / d.highColumns %
                d.rowsPerBank = row :=
    Finset.filter_congr fun b _ => tripleOf_eq_iff h b rank bank row
  rw [hdigits, h.bursts]
  calc _ = d.lowColumns * (MixedRadix.below
        (d.banksPerRank * (d.ranksPerChannel * (d.highColumns * d.rowsPerBank))) fun k =>
          k % d.banksPerRank = bank ∧ k / d.banksPerRank % d.ranksPerChannel = rank ∧
            k / d.banksPerRank / d.ranksPerChannel / d.highColumns % d.rowsPerBank = row).card :=
        MixedRadix.card_div _ _
    _ = d.lowColumns * (MixedRadix.below (d.ranksPerChannel * (d.highColumns * d.rowsPerBank))
          fun k => k % d.ranksPerChannel = rank ∧
            k / d.ranksPerChannel / d.highColumns % d.rowsPerBank = row).card :=
        congrArg _ (MixedRadix.card_mod (P := fun k => k % d.ranksPerChannel = rank ∧
          k / d.ranksPerChannel / d.highColumns % d.rowsPerBank = row) hbank _)
    _ = d.lowColumns * (MixedRadix.below (d.highColumns * d.rowsPerBank) fun k =>
          k / d.highColumns % d.rowsPerBank = row).card :=
        congrArg _ (MixedRadix.card_mod
          (P := fun k => k / d.highColumns % d.rowsPerBank = row) hrank _)
    _ = d.lowColumns * (d.highColumns *
          (MixedRadix.below d.rowsPerBank fun k => k % d.rowsPerBank = row).card) :=
        congrArg _ (MixedRadix.card_div (P := fun k => k % d.rowsPerBank = row) _ _)
    _ = d.burstsPerRowBuffer := by rw [MixedRadix.card_digit hrow, Nat.mul_one, h.columns]

theorem Sound.decodes (h : Sound d cap) : Decodes d cap where
  asserts := fun _ => ⟨_, decodeAddr_eq h _⟩
  burst := fun a b hab => by
    unfold decodePacket
    rw [decodeAddr_eq h, decodeAddr_eq h, hab]
  count := fun _ _ _ hrank hbank hrow => card_tripleOf h hrank hbank hrow
  bankId := fun a b x y ha hb hid => by
    unfold decodePacket at ha hb
    rw [decodeAddr_eq h, Except.ok.injEq] at ha hb
    subst ha hb
    obtain ⟨hbank, hrank⟩ :=
      MixedRadix.eq_of_digits (Nat.mod_lt _ h.banks) (Nat.mod_lt _ h.banks) hid
    exact ⟨hrank, hbank⟩

/-! ## Accepted geometries -/

/-- The product of the constructor, before it is cut off at 32 bits. -/
def bytesPerRow (d : DRAMInterface) : ℕ := d.rowBufferSize * d.banksPerRank * d.ranksPerChannel

/-- What the constructor has checked and set. -/
structure Constructed (p : DRAMInterfaceParams) (d : DRAMInterface) : Prop where
  burstSize : FALRU.isPowerOf2 d.burstSize = true
  burstsPerRowBuffer : d.burstsPerRowBuffer = d.rowBufferSize / d.burstSize
  bytesPerRow : d.bytesPerRow % 2 ^ 32 ≠ 0
  rowsPerBank : ∃ cap, capacity p.range = .ok cap ∧
    d.rowsPerBank = cap / (d.bytesPerRow % 2 ^ 32) % 2 ^ 32

theorem new_constructed (h : new p = .ok d) :
    Constructed p d := by
  unfold new at h
  dsimp only at h
  obtain ⟨burstsPerRowBuffer, hrow, h⟩ := bind_eq_ok.mp h
  obtain ⟨burstsPerStripe, _, h⟩ := bind_eq_ok.mp h
  obtain ⟨_, hburst, h⟩ := bind_eq_ok.mp h
  obtain ⟨_, _, h⟩ := bind_eq_ok.mp h
  obtain ⟨cap, hcap, h⟩ := bind_eq_ok.mp h
  obtain ⟨rows, hrows, h⟩ := bind_eq_ok.mp h
  obtain ⟨_, _, h⟩ := bind_eq_ok.mp h
  obtain ⟨_, _, h⟩ := bind_eq_ok.mp h
  obtain rfl := Except.ok.inj h
  have hbytes : (p.devices_per_rank * p.device_rowbuffer_size * p.banks_per_rank *
      p.ranks_per_channel).toNat = (p.devices_per_rank * p.device_rowbuffer_size).toNat *
        p.banks_per_rank.toNat * p.ranks_per_channel.toNat % 2 ^ 32 := by
    rw [BitVec.toNat_mul, BitVec.toNat_mul _ p.banks_per_rank, Nat.mod_mul_mod]
  rw [hbytes] at hrows
  refine ⟨require_eq_ok.mp hburst, (divide_eq hrow).2, (divide_eq hrows).1, cap, hcap, ?_⟩
  exact congrArg (· % 2 ^ 32) (divide_eq hrows).2

/-- **A geometry that the claim is about**: one that is accepted, with at most 256 banks and ranks,
whole stripes in a row buffer and whole rows in the capacity. -/
structure Accepted (p : DRAMInterfaceParams) (cacheLineSize : ℕ) (d : DRAMInterface) (cap : ℕ) :
    Prop where
  constructed : new p = .ok d
  initialised : d.init cacheLineSize = .ok ()
  capacity : capacity p.range = .ok cap
  banks : d.banksPerRank ≤ 256
  ranks : d.ranksPerChannel ≤ 256
  stripe : d.burstsPerStripe ∣ d.burstsPerRowBuffer
  rows : d.bytesPerRow ∣ cap

/-- All sizes are powers of two, and the product of the constructor is not cut off. -/
theorem Accepted.powers {cacheLineSize : ℕ} (h : Accepted p cacheLineSize d cap) :
    ∃ burst m t, d.burstSize = 2 ^ burst ∧ d.bytesPerRow = 2 ^ m ∧ cap = 2 ^ (m + t) ∧
      d.rowsPerBank = 2 ^ t % 2 ^ 32 := by
  have hc := new_constructed h.constructed
  obtain ⟨burst, hburst⟩ := FALRU.exists_two_pow hc.burstSize
  obtain ⟨cap', hcap, hrows⟩ := hc.rowsPerBank
  obtain rfl := Except.ok.inj (hcap.symm.trans h.capacity)
  obtain ⟨k, rfl⟩ : ∃ k, cap' = 2 ^ k := by
    unfold DRAMInterface.capacity at hcap
    obtain ⟨_, _, hcap⟩ := bind_eq_ok.mp hcap
    obtain ⟨_, _, hcap⟩ := bind_eq_ok.mp hcap
    obtain ⟨_, _, hcap⟩ := bind_eq_ok.mp hcap
    exact ⟨_, (Except.ok.inj hcap).symm⟩
  obtain ⟨m, hm, hbytes⟩ := (Nat.dvd_prime_pow Nat.prime_two).mp h.rows
  have hsmall : m < 32 := by
    by_contra hge
    refine hc.bytesPerRow ?_
    rw [hbytes]
    exact Nat.mod_eq_zero_of_dvd (pow_dvd_pow 2 (not_lt.mp hge))
  refine ⟨burst, m, k - m, hburst, hbytes, by rw [Nat.add_sub_cancel' hm], ?_⟩
  rw [hrows, hbytes, Nat.mod_eq_of_lt (Nat.pow_lt_pow_right (by decide) hsmall),
    Nat.pow_div hm (by decide)]

/-- The two column digits make up a row buffer. -/
theorem columns_sound (hpos : 0 < d.burstsPerRowBuffer)
    (hstripe : d.burstsPerStripe ∣ d.burstsPerRowBuffer) :
    0 < d.lowColumns ∧ 0 < d.highColumns ∧ d.lowColumns * d.highColumns = d.burstsPerRowBuffer := by
  have hle : d.burstsPerStripe ≤ d.burstsPerRowBuffer := Nat.le_of_dvd hpos hstripe
  unfold lowColumns highColumns
  cases d.addrMapping with
  | RoRaBaChCo => exact ⟨hpos, Nat.one_pos, Nat.mul_one _⟩
  | RoRaBaCoCh => exact ⟨hpos, Nat.one_pos, Nat.mul_one _⟩
  | RoCoRaBaCh =>
    dsimp only
    rw [if_neg (not_lt.mpr hle)]
    split_ifs with hlt
    · exact ⟨Nat.pos_of_dvd_of_pos hstripe hpos, Nat.div_pos hle
        (Nat.pos_of_dvd_of_pos hstripe hpos), Nat.mul_div_cancel' hstripe⟩
    · rw [Nat.le_antisymm hle (not_lt.mp hlt)]
      exact ⟨hpos, Nat.one_pos, Nat.mul_one _⟩

/-- The condition makes the digits fit. -/
theorem Accepted.sound {cacheLineSize : ℕ} (h : Accepted p cacheLineSize d cap)
    (hburst : d.burstSize ≤ d.rowBufferSize) (hrows : cap / d.bytesPerRow < 2 ^ 32) :
    Sound d cap := by
  have hc := new_constructed h.constructed
  obtain ⟨j, m, t, hj, hm, rfl, ht⟩ := h.powers
  have hpos : 0 < d.bytesPerRow := hm ▸ Nat.two_pow_pos m
  have hburstpos : 0 < d.burstSize := hj ▸ Nat.two_pow_pos j
  have hrowsbanks := Nat.pos_of_mul_pos_right hpos
  obtain ⟨r, _, hr⟩ : ∃ r, r ≤ m ∧ d.rowBufferSize = 2 ^ r := by
    refine (Nat.dvd_prime_pow Nat.prime_two).mp ?_
    rw [← hm, bytesPerRow, Nat.mul_assoc]
    exact Nat.dvd_mul_right _ _
  have hwhole : d.burstsPerRowBuffer * d.burstSize = d.rowBufferSize := by
    rw [hc.burstsPerRowBuffer]
    refine Nat.div_mul_cancel ?_
    rw [hj, hr] at hburst ⊢
    exact pow_dvd_pow 2 ((Nat.pow_le_pow_iff_right (by decide)).mp hburst)
  have hbursts : 0 < d.burstsPerRowBuffer := by
    refine Nat.pos_of_mul_pos_right (b := d.burstSize) ?_
    rw [hwhole, hr]
    exact Nat.two_pow_pos r
  have hquot : 2 ^ (m + t) / d.bytesPerRow = 2 ^ t := by
    rw [hm, Nat.pow_add, Nat.mul_div_cancel_left _ (Nat.two_pow_pos m)]
  rw [hquot] at hrows
  rw [Nat.mod_eq_of_lt hrows] at ht
  obtain ⟨hlow, hhigh, hcolumns⟩ := columns_sound hbursts h.stripe
  refine ⟨hburstpos, hlow, hhigh, hcolumns, Nat.pos_of_mul_pos_left hrowsbanks, h.banks,
    Nat.pos_of_mul_pos_left hpos, h.ranks, ht ▸ Nat.two_pow_pos t, ht ▸ hrows, ?_⟩
  refine Nat.div_eq_of_eq_mul_left hburstpos ?_
  calc 2 ^ (m + t) = d.bytesPerRow * d.rowsPerBank := by rw [hm, ht, Nat.pow_add]
    _ = d.burstsPerRowBuffer * d.burstSize * d.banksPerRank * d.ranksPerChannel *
          d.rowsPerBank := by rw [bytesPerRow, hwhole]
    _ = _ := by rw [← hcolumns]; ring

/-- A division by zero is the alternative. -/
theorem pos_of_decodeAddr {addr : ℕ} {x : Decoded} (h : d.decodeAddr addr = .ok x) :
    0 < d.lowColumns ∧ 0 < d.rowsPerBank := by
  unfold decodeAddr at h
  obtain ⟨_, _, h⟩ := bind_eq_ok.mp h
  obtain ⟨_, hlow, h⟩ := bind_eq_ok.mp h
  obtain ⟨_, _, h⟩ := bind_eq_ok.mp h
  dsimp only at h
  obtain ⟨_, _, h⟩ := bind_eq_ok.mp h
  obtain ⟨_, _, h⟩ := bind_eq_ok.mp h
  obtain ⟨_, _, h⟩ := bind_eq_ok.mp h
  obtain ⟨_, _, h⟩ := bind_eq_ok.mp h
  obtain ⟨_, hrow, h⟩ := bind_eq_ok.mp h
  refine ⟨?_, modulo_pos hrow⟩
  revert hlow
  unfold dropLowColumn lowColumns
  cases d.addrMapping with
  | RoRaBaChCo => exact fun hlow => Nat.pos_of_ne_zero (divide_eq hlow).1
  | RoRaBaCoCh => exact fun hlow => Nat.pos_of_ne_zero (divide_eq hlow).1
  | RoCoRaBaCh =>
    dsimp only
    split_ifs
    · exact fun hlow => Nat.pos_of_ne_zero (divide_eq hlow).1
    · exact fun hlow => Nat.pos_of_ne_zero (divide_eq hlow).1

theorem burstsPerRowBuffer_pos (h : 0 < d.lowColumns) :
    0 < d.burstsPerRowBuffer := by
  revert h
  unfold lowColumns
  cases d.addrMapping with
  | RoRaBaChCo => exact id
  | RoRaBaCoCh => exact id
  | RoCoRaBaCh =>
    dsimp only
    split_ifs with hlt
    · exact id
    · exact fun hpos => hpos.trans_le (not_lt.mp hlt)

/-- **Address decoding.**  For each mapping and each accepted geometry, the decoding is what it is
to be if and only if a row buffer holds a burst and the rows of a bank can be counted in 32 bits. -/
theorem decodes_iff {p : DRAMInterfaceParams} {cacheLineSize cap : ℕ} {d : DRAMInterface}
    (h : Accepted p cacheLineSize d cap) :
    Decodes d cap ↔ d.burstSize ≤ d.rowBufferSize ∧ cap / d.bytesPerRow < 2 ^ 32 := by
  constructor
  · intro hdecodes
    have hc := new_constructed h.constructed
    obtain ⟨x, hx⟩ := hdecodes.asserts 0
    obtain ⟨hlow, hrows⟩ := pos_of_decodeAddr hx
    have hpos := burstsPerRowBuffer_pos hlow
    rw [hc.burstsPerRowBuffer] at hpos
    refine ⟨(Nat.div_pos_iff.mp hpos).2, ?_⟩
    obtain ⟨j, m, t, -, hm, rfl, ht⟩ := h.powers
    rw [hm, Nat.pow_add, Nat.mul_div_cancel_left _ (Nat.two_pow_pos m)]
    by_contra hge
    have hle : 32 ≤ t := (Nat.pow_le_pow_iff_right (by decide)).mp (not_lt.mp hge)
    rw [ht, Nat.mod_eq_zero_of_dvd (pow_dvd_pow 2 hle)] at hrows
    exact absurd hrows (lt_irrefl 0)
  · rintro ⟨hburst, hrows⟩
    exact (h.sound hburst hrows).decodes

/-! ## Geometries -/

/-- A channel with the given mapping, size of a row buffer on a device, range, and width of a burst
in bytes; the timing is that of DDR3-1600. -/
def testParams (mapping : AddrMap) (devices rowBuffer ranks banks : BitVec 32)
    (range : AddrRange) : DRAMInterfaceParams where
  addr_mapping := mapping
  device_bus_width := 8
  burst_length := 8
  device_rowbuffer_size := rowBuffer
  devices_per_rank := devices
  ranks_per_channel := ranks
  banks_per_rank := banks
  bank_groups_per_rank := 0
  tREFI := 7800000
  tRP := 13750
  tRFC := 260000
  tBURST := 5000
  tCCD_L := 0
  tCCD_L_WR := 0
  tRRD := 6000
  tRRD_L := 0
  range := range

/-- One of two channels that share 1 GiB in stripes of 128 bytes. -/
def ddr3 : DRAMInterfaceParams :=
  testParams .RoCoRaBaCh 8 1024 2 8 ⟨0, 0x40000000, [0x80], 1⟩

theorem decodes_ddr3 : ∃ d, Accepted ddr3 64 d (2 ^ 29) ∧ d.burstsPerStripe = 2 ∧
    d.rowsPerBank = 4096 ∧ Decodes d (2 ^ 29) := by
  have hnew : ∃ d, new ddr3 = .ok d ∧ d.init 64 = .ok () ∧ d.banksPerRank ≤ 256 ∧
      d.ranksPerChannel ≤ 256 ∧ d.burstsPerStripe ∣ d.burstsPerRowBuffer ∧
      d.bytesPerRow ∣ 2 ^ 29 ∧ d.burstsPerStripe = 2 ∧ d.rowsPerBank = 4096 ∧
      d.burstSize ≤ d.rowBufferSize ∧ 2 ^ 29 / d.bytesPerRow < 2 ^ 32 := by decide +kernel
  obtain ⟨d, hnew, hinit, hbanks, hranks, hstripe, hbytes, htwo, hrows, hcond⟩ := hnew
  have haccepted : Accepted ddr3 64 d (2 ^ 29) :=
    ⟨hnew, hinit, by decide +kernel, hbanks, hranks, hstripe, hbytes⟩
  exact ⟨d, haccepted, htwo, hrows, (decodes_iff haccepted).mpr hcond⟩

/-- A burst of 64 bytes with row buffers of 32, and 256 GiB with one bank of row buffers of 64. -/
def smallRows : DRAMInterfaceParams := testParams .RoRaBaCoCh 8 4 1 1 ⟨0, 64, [], 0⟩

def manyRows : DRAMInterfaceParams := testParams .RoRaBaCoCh 8 8 1 1 ⟨0, 0x4000000000, [], 0⟩

/-- **Geometries that are accepted and cannot be decoded**: the first address stops the simulator
with a division by zero. -/
theorem decoding_divides_by_zero :
    (∃ d, new smallRows = .ok d ∧ d.init 64 = .ok () ∧ d.banksPerRank ≤ 256 ∧
      d.ranksPerChannel ≤ 256 ∧ d.burstsPerStripe ∣ d.burstsPerRowBuffer ∧
      capacity smallRows.range = .ok 64 ∧ d.bytesPerRow ∣ 64 ∧
      d.decodePacket 0 = .error .divisionByZero) ∧
    ∃ d, new manyRows = .ok d ∧ d.init 64 = .ok () ∧ d.banksPerRank ≤ 256 ∧
      d.ranksPerChannel ≤ 256 ∧ d.burstsPerStripe ∣ d.burstsPerRowBuffer ∧
      capacity manyRows.range = .ok (2 ^ 38) ∧ d.bytesPerRow ∣ 2 ^ 38 ∧
      d.decodePacket 0 = .error .divisionByZero := by
  refine ⟨?_, ?_⟩ <;> decide +kernel

end DRAMInterface

end Gem5.Mem
