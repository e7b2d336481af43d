/-
# Load locked and store conditional

What a reservation means is said on the history of the accesses: a context holds the
granule of its latest load locked until an access stores a byte of it (`reserved`).
The list of records agrees with that as long as every access that stores into a
reserved granule is a write whose start address lies in the granule (`Covered`):
`checkLockedAddrList` compares masked start addresses only, and swaps and atomic
operations do not call it at all.
-/
import Gem5.AbstractMemory

namespace Gem5.Mem.LockedMem

open Runs

/-! ## Histories -/

/-- What the history keeps of an access. -/
structure Event where
  contextId : Option ℕ
  loadLocked : Bool
  addr : ℕ
  /-- the bytes that were stored from `addr` on -/
  written : List (Option UInt8)
  deriving DecidableEq

/-- Some byte of the granule `g` is among those stored from `addr` on. -/
def touches (addr : ℕ) (bs : List (Option UInt8)) (g : ℕ) : Bool :=
  (List.range bs.length).any fun i => bs[i]?.join.isSome && mask (addr + i) == g

/-- **The meaning of a reservation.**  The latest load locked of context `c` was to the
granule `g`, and no byte of `g` was stored since; the history has the latest access
first. -/
def reserved : List Event → ℕ → ℕ → Bool
  | [], _, _ => false
  | e :: hist, c, g =>
      if e.loadLocked && e.contextId = some c then mask e.addr = g
      else !touches e.addr e.written g && reserved hist c g

/-- A load locked: a read with the LL/SC attribute. -/
def Packet.loadLocked (pkt : Packet) : Bool :=
  pkt.cmd ≠ .SwapReq && pkt.cmd.isRead && pkt.cmd.isLLSC

/-- A plain write or store conditional, which goes through `writeOK`. -/
def Packet.plainWrite (pkt : Packet) : Bool :=
  pkt.cmd ≠ .SwapReq && !pkt.cmd.isRead && !(pkt.cmd.isInvalidate || pkt.cmd.isClean) &&
    pkt.cmd.isWrite

/-- A store conditional needs a record of its context; other writes are allowed. -/
def allowed (m : AbstractMemory) (pkt : Packet) : Bool :=
  !pkt.cmd.isLLSC || m.lockedAddrList.any fun l =>
    l.addr == mask pkt.addr && pkt.contextId = some l.contextId

/-- The bytes an access stores. -/
def written (m : AbstractMemory) (pkt : Packet) : List (Option UInt8) :=
  if pkt.cmd = .SwapReq then
    match pkt.atomicOp with
    | some op => (op.apply (load m.pmem pkt.addr pkt.data.length)).map some
    | none => if (overwriteMem m pkt).toOption = some true then pkt.data.map some else []
  else if pkt.plainWrite && allowed m pkt then pkt.writeBytes
  else []

/-- The access in the history; what the memory does not serve is no access to it. -/
def event (m : AbstractMemory) (pkt : Packet) : Option Event :=
  if pkt.served then some ⟨pkt.contextId, pkt.loadLocked, pkt.addr, written m pkt⟩ else none

/-- A memory with its history. -/
structure Run where
  mem : AbstractMemory
  hist : List Event

variable (inRange : ℕ → ℕ → Bool)

/-- One access. -/
def step (s : Run) (pkt : Packet) : Except Fault Run := do
  let (m', _) ← access inRange s.mem pkt
  return ⟨m', (event s.mem pkt).toList ++ s.hist⟩

/-- A memory in which nothing was accessed. -/
def start (pmem : Bytes) : Run := ⟨⟨pmem, []⟩, []⟩

/-- The granules whose records an access erases. -/
def clears (m : AbstractMemory) (pkt : Packet) (g : ℕ) : Bool :=
  pkt.plainWrite && allowed m pkt && mask pkt.addr == g

/-- **When an access treats the reservations right**: of the reserved granules it
erases exactly those it stores into. -/
def Covered (s : Run) (pkt : Packet) : Prop :=
  pkt.served = true → ∀ l ∈ s.mem.lockedAddrList,
    clears s.mem pkt l.addr = touches pkt.addr (written s.mem pkt) l.addr

instance (s : Run) (pkt : Packet) : Decidable (Covered s pkt) :=
  inferInstanceAs (Decidable (pkt.served = true → ∀ l ∈ s.mem.lockedAddrList,
    clears s.mem pkt l.addr = touches pkt.addr (written s.mem pkt) l.addr))

/-! ## What an access does -/

/-- The records after an access. -/
def nextRecords (m : AbstractMemory) (pkt : Packet) : List LockedAddr :=
  if pkt.plainWrite && allowed m pkt then
    m.lockedAddrList.filter fun l => l.addr ≠ mask pkt.addr
  else m.lockedAddrList

variable {paddr : ℕ} {ls : List LockedAddr} {m m' : AbstractMemory} {pkt pkt' : Packet}

theorem findRecord_ok {contextId : Option ℕ} {b : Bool} (h : findRecord paddr contextId ls = .ok b)
    :
    b = ls.any fun l => l.addr == paddr && contextId = some l.contextId := by
  induction ls with
  | nil =>
    cases h
    rfl
  | cons l ls ih =>
    rw [List.any_cons]
    unfold findRecord at h
    by_cases haddr : l.addr = paddr
    · rw [if_pos haddr] at h
      obtain ⟨found, hfound, h⟩ := bind_eq_ok.mp h
      cases contextId with
      | none => cases hfound
      | some c =>
        cases hfound
        by_cases hc : l.contextId = c
        · rw [if_pos (by simp [hc])] at h
          cases h
          simp [haddr, hc]
        · rw [if_neg (by simp [hc])] at h
          rw [ih h]
          simp [Ne.symm hc]
    · rw [if_neg haddr] at h
      rw [ih h]
      simp [haddr]

/-- **What `writeOK` decides and erases.** -/
theorem writeOK_ok {b : Bool} (h : writeOK m pkt = .ok (b, m', pkt')) :
    b = allowed m pkt ∧ m'.pmem = m.pmem ∧
      m'.lockedAddrList = (if allowed m pkt then
        m.lockedAddrList.filter fun l => l.addr ≠ mask pkt.addr else m.lockedAddrList) ∧
      pkt' = (if pkt.cmd.isLLSC then
        { pkt with extraData := some (if allowed m pkt then 1 else 0) } else pkt) := by
  unfold writeOK at h
  by_cases hempty : m.lockedAddrList = []
  · rw [if_pos hempty] at h
    cases hll : pkt.cmd.isLLSC with
    | true =>
      rw [hll, if_pos rfl] at h
      cases h
      simp [allowed, hll, hempty]
    | false =>
      rw [hll, if_neg Bool.false_ne_true] at h
      cases h
      simp [allowed, hll, hempty]
  · rw [if_neg hempty] at h
    obtain ⟨allow, hallow, h⟩ := bind_eq_ok.mp h
    have hb : allow = allowed m pkt := by
      unfold allowStore at hallow
      unfold allowed
      cases hll : pkt.cmd.isLLSC with
      | true =>
        rw [hll, if_pos rfl] at hallow
        rw [findRecord_ok hallow]
        rfl
      | false =>
        rw [hll, if_neg Bool.false_ne_true] at hallow
        cases hallow
        rfl
    subst hb
    cases h
    refine ⟨rfl, ?_, ?_, rfl⟩
    · split_ifs <;> rfl
    · split_ifs <;> rfl

/-- A load locked changes the records of its own context only. -/
theorem modifyRecord_some {c : ℕ} {ls' : List LockedAddr} (h : modifyRecord c paddr ls = some ls') :
    ls'.map LockedAddr.contextId = ls.map LockedAddr.contextId ∧
      ∀ c' ≠ c, ∀ g, (⟨g, c'⟩ : LockedAddr) ∈ ls' ↔ (⟨g, c'⟩ : LockedAddr) ∈ ls := by
  induction ls generalizing ls' with
  | nil => cases h
  | cons l ls ih =>
    rw [modifyRecord] at h
    by_cases hc : l.contextId = c
    · rw [if_pos hc] at h
      cases h
      refine ⟨rfl, fun c' hne g => ?_⟩
      have hne' : l.contextId ≠ c' := fun heq => hne (heq ▸ hc)
      rw [List.mem_cons, List.mem_cons]
      refine or_congr_left (iff_of_false ?_ ?_)
      · exact fun heq => hne' (LockedAddr.mk.inj heq).2.symm
      · exact fun heq => hne' (by rw [← heq])
    · rw [if_neg hc] at h
      obtain ⟨ls₁, hls₁, rfl⟩ := Option.map_eq_some_iff.mp h
      obtain ⟨hmap, hothers⟩ := ih hls₁
      refine ⟨?_, fun c' hne g => ?_⟩
      · rw [List.map_cons, List.map_cons, hmap]
      · rw [List.mem_cons, List.mem_cons, hothers c' hne g]

/-- With one record for each context, the context that loaded holds its new granule. -/
theorem mem_modifyRecord {c g : ℕ} {ls' : List LockedAddr} (h : modifyRecord c paddr ls = some ls')
    (hnodup : (ls.map LockedAddr.contextId).Nodup) :
    (⟨g, c⟩ : LockedAddr) ∈ ls' ↔ g = paddr := by
  induction ls generalizing ls' with
  | nil => cases h
  | cons l ls ih =>
    rw [modifyRecord] at h
    rw [List.map_cons, List.nodup_cons] at hnodup
    by_cases hc : l.contextId = c
    · rw [if_pos hc] at h
      cases h
      rw [List.mem_cons]
      have hnot : (⟨g, c⟩ : LockedAddr) ∉ ls := fun hmem =>
        hnodup.1 (hc ▸ List.mem_map_of_mem (f := LockedAddr.contextId) hmem)
      rw [or_iff_left hnot, LockedAddr.mk.injEq, and_iff_left hc.symm]
    · rw [if_neg hc] at h
      obtain ⟨ls₁, hls₁, rfl⟩ := Option.map_eq_some_iff.mp h
      rw [List.mem_cons, ih hls₁ hnodup.2]
      exact or_iff_right fun heq => hc (by rw [← heq])

theorem modifyRecord_none {c : ℕ} (h : modifyRecord c paddr ls = none) :
    c ∉ ls.map LockedAddr.contextId := by
  induction ls with
  | nil => exact List.not_mem_nil
  | cons l ls ih =>
    rw [modifyRecord] at h
    by_cases hc : l.contextId = c
    · rw [if_pos hc] at h
      cases h
    · rw [if_neg hc, Option.map_eq_none_iff] at h
      rw [List.map_cons, List.mem_cons, not_or]
      exact ⟨Ne.symm hc, ih h⟩

/-- **A load locked** leaves its context with one record, of the new granule. -/
theorem trackLoadLocked_ok (h : trackLoadLocked m pkt = .ok m')
    (hnodup : (m.lockedAddrList.map LockedAddr.contextId).Nodup) :
    m'.pmem = m.pmem ∧ ∃ c, pkt.contextId = some c ∧
      (m'.lockedAddrList.map LockedAddr.contextId).Nodup ∧
      ∀ c' g, (⟨g, c'⟩ : LockedAddr) ∈ m'.lockedAddrList ↔
        if c' = c then mask pkt.addr = g else (⟨g, c'⟩ : LockedAddr) ∈ m.lockedAddrList := by
  unfold trackLoadLocked at h
  cases hc : pkt.contextId with
  | none =>
    rw [hc] at h
    cases h
  | some c =>
    rw [hc] at h
    simp only at h
    cases hmod : modifyRecord c (mask pkt.addr) m.lockedAddrList with
    | some ls =>
      rw [hmod] at h
      cases h
      obtain ⟨hmap, hothers⟩ := modifyRecord_some hmod
      refine ⟨rfl, c, rfl, by rw [hmap]; exact hnodup, fun c' g => ?_⟩
      by_cases hcc : c' = c
      · subst hcc
        rw [if_pos rfl, mem_modifyRecord hmod hnodup]
        exact eq_comm
      · rw [if_neg hcc]
        exact hothers c' hcc g
    | none =>
      rw [hmod] at h
      cases h
      have hnone := modifyRecord_none hmod
      refine ⟨rfl, c, rfl, List.nodup_cons.mpr ⟨hnone, hnodup⟩, fun c' g => ?_⟩
      rw [List.mem_cons, LockedAddr.mk.injEq]
      by_cases hcc : c' = c
      · subst hcc
        rw [if_pos rfl, or_iff_left, and_iff_left rfl]
        · exact eq_comm
        · exact fun hmem => hnone (List.mem_map_of_mem (f := LockedAddr.contextId) hmem)
      · rw [if_neg hcc, or_iff_right fun heq => hcc heq.2]

theorem store_nil (mem : Bytes) (addr : ℕ) : store mem addr [] = mem := by
  funext x
  unfold store
  split_ifs <;> rfl

theorem plainWrite_of_swap (h : pkt.cmd = .SwapReq) : pkt.plainWrite = false := by
  unfold Packet.plainWrite
  rw [h]
  rfl

theorem loadLocked_of_plainWrite (h : pkt.plainWrite = true) :
    pkt.loadLocked = false := by
  unfold Packet.plainWrite at h
  unfold Packet.loadLocked
  cases hread : pkt.cmd.isRead with
  | false => simp
  | true => simp [hread] at h

/-- An access other than a load locked: what it stores, and which records remain. -/
structure Effect (m : AbstractMemory) (pkt : Packet) (m' : AbstractMemory) : Prop where
  pmem : m'.pmem = store m.pmem pkt.addr (written m pkt)
  records : pkt.loadLocked = false → m'.lockedAddrList = nextRecords m pkt
  tracked : pkt.loadLocked = true → trackLoadLocked m pkt = .ok m'

theorem swap_ok (hcmd : pkt.cmd = .SwapReq) (h : swap m pkt = .ok (m', pkt')) :
    Effect m pkt m' := by
  have hrecords : nextRecords m pkt = m.lockedAddrList := by
    unfold nextRecords
    rw [plainWrite_of_swap hcmd]
    rfl
  have hll : pkt.loadLocked = false := by
    unfold Packet.loadLocked
    rw [hcmd]
    rfl
  unfold swap at h
  cases hop : pkt.atomicOp with
  | some op =>
    rw [hop] at h
    cases h
    refine ⟨?_, fun _ => hrecords.symm, fun htrue => absurd htrue (by rw [hll]; decide)⟩
    unfold written
    rw [if_pos hcmd, hop]
  | none =>
    rw [hop] at h
    obtain ⟨overwrite, hover, h⟩ := bind_eq_ok.mp h
    obtain ⟨-, -, h⟩ := bind_eq_ok.mp h
    cases h
    refine ⟨?_, fun _ => ?_, fun htrue => absurd htrue (by rw [hll]; decide)⟩
    · unfold written
      rw [if_pos hcmd, hop, hover]
      cases overwrite with
      | true => rfl
      | false => exact (store_nil _ _).symm
    · rw [hrecords]
      split_ifs <;> rfl

theorem read_ok (hcmd : pkt.cmd ≠ .SwapReq) (hread : pkt.cmd.isRead = true)
    (h : read m pkt = .ok (m', pkt')) : Effect m pkt m' := by
  have hplain : pkt.plainWrite = false := by
    unfold Packet.plainWrite
    rw [hread]
    simp
  have hwritten : written m pkt = [] := by
    unfold written
    rw [if_neg hcmd, hplain]
    rfl
  have hrecords : nextRecords m pkt = m.lockedAddrList := by
    unfold nextRecords
    rw [hplain]
    rfl
  have hll : pkt.loadLocked = pkt.cmd.isLLSC := by
    unfold Packet.loadLocked
    rw [hread]
    simp [hcmd]
  unfold read at h
  obtain ⟨-, -, h⟩ := bind_eq_ok.mp h
  obtain ⟨m₁, htrack, h⟩ := bind_eq_ok.mp h
  cases h
  unfold trackRead at htrack
  cases hllsc : pkt.cmd.isLLSC with
  | true =>
    rw [hllsc, if_pos rfl] at htrack
    split_ifs at htrack
    have hmem : m'.pmem = m.pmem := by
      unfold trackLoadLocked at htrack
      split at htrack
      · cases htrack
      · simp only at htrack
        split at htrack
        · cases htrack
          rfl
        · cases htrack
          rfl
    refine ⟨?_, fun hfalse => ?_, fun _ => htrack⟩
    · rw [hwritten, store_nil, hmem]
    · rw [hll, hllsc] at hfalse
      cases hfalse
  | false =>
    rw [hllsc, if_neg Bool.false_ne_true] at htrack
    cases htrack
    refine ⟨?_, fun _ => hrecords.symm, fun htrue => ?_⟩
    · rw [hwritten, store_nil]
    · rw [hll, hllsc] at htrue
      cases htrue

theorem write_ok (hplain : pkt.plainWrite = true) (h : write m pkt = .ok (m', pkt')) :
    Effect m pkt m' ∧ (pkt.cmd.isLLSC = true → pkt'.cmd = pkt.cmd ∧
      pkt'.extraData = some (if allowed m pkt then 1 else 0)) := by
  have hcmd : pkt.cmd ≠ .SwapReq := fun heq => by
    rw [plainWrite_of_swap heq] at hplain
    cases hplain
  have hwritten : written m pkt = if allowed m pkt then pkt.writeBytes else [] := by
    unfold written
    rw [if_neg hcmd, hplain, Bool.true_and]
  have hrecords : nextRecords m pkt = if allowed m pkt then
      m.lockedAddrList.filter fun l => l.addr ≠ mask pkt.addr else m.lockedAddrList := by
    unfold nextRecords
    rw [hplain, Bool.true_and]
  have hll := loadLocked_of_plainWrite hplain
  unfold write at h
  obtain ⟨⟨allow, m₁, pkt₁⟩, hok, h⟩ := bind_eq_ok.mp h
  obtain ⟨m₂, hdata, h⟩ := bind_eq_ok.mp h
  cases h
  unfold writeIf at hdata
  obtain ⟨rfl, hpmem, hlist, hpkt⟩ := writeOK_ok hok
  have hsame : pkt'.addr = pkt.addr ∧ pkt'.writeBytes = pkt.writeBytes := by
    rw [hpkt]
    by_cases hllsc : pkt.cmd.isLLSC = true
    · rw [if_pos hllsc]
      exact ⟨rfl, rfl⟩
    · rw [if_neg hllsc]
      exact ⟨rfl, rfl⟩
  refine ⟨?_, fun hllsc => ?_⟩
  · cases hallow : allowed m pkt with
    | true =>
      rw [hallow, if_pos rfl] at hdata
      rw [hallow, if_pos rfl] at hwritten hrecords hlist
      unfold writeData at hdata
      obtain ⟨-, -, hdata⟩ := bind_eq_ok.mp hdata
      obtain ⟨-, -, hdata⟩ := bind_eq_ok.mp hdata
      cases hdata
      refine ⟨?_, fun _ => ?_, fun htrue => absurd htrue (by rw [hll]; decide)⟩
      · rw [hwritten, ← hpmem, ← hsame.2, ← hsame.1]
      · rw [hrecords, ← hlist]
    | false =>
      rw [hallow, if_neg Bool.false_ne_true] at hdata
      rw [hallow, if_neg Bool.false_ne_true] at hwritten hrecords hlist
      cases hdata
      refine ⟨?_, fun _ => ?_, fun htrue => absurd htrue (by rw [hll]; decide)⟩
      · rw [hwritten, store_nil, hpmem]
      · rw [hrecords, hlist]
  · rw [hpkt, if_pos hllsc]
    exact ⟨rfl, rfl⟩

/-- **What the memory does for a packet it serves.** -/
theorem serve_ok (h : serve m pkt = .ok (m', pkt')) :
    Effect m pkt m' ∧ (pkt.plainWrite = true → pkt.cmd.isLLSC = true →
      pkt'.extraData = some (if allowed m pkt then 1 else 0)) := by
  unfold serve at h
  by_cases hcmd : pkt.cmd = .SwapReq
  · rw [if_pos hcmd] at h
    refine ⟨swap_ok hcmd h, fun hplain => ?_⟩
    rw [plainWrite_of_swap hcmd] at hplain
    cases hplain
  rw [if_neg hcmd] at h
  cases hread : pkt.cmd.isRead with
  | true =>
    rw [hread, if_pos rfl] at h
    refine ⟨read_ok hcmd hread h, fun hplain => ?_⟩
    unfold Packet.plainWrite at hplain
    simp [hread] at hplain
  | false =>
    rw [hread, if_neg Bool.false_ne_true] at h
    cases hclean : pkt.cmd.isInvalidate || pkt.cmd.isClean with
    | true =>
      rw [hclean, if_pos rfl] at h
      obtain ⟨-, -, h⟩ := bind_eq_ok.mp h
      cases h
      have hplain : pkt.plainWrite = false := by
        unfold Packet.plainWrite
        rw [hclean]
        simp
      refine ⟨⟨?_, fun _ => ?_, fun htrue => ?_⟩, fun htrue => ?_⟩
      · unfold written
        rw [if_neg hcmd, hplain]
        exact (store_nil _ _).symm
      · unfold nextRecords
        rw [hplain]
        rfl
      · unfold Packet.loadLocked at htrue
        simp [hread] at htrue
      · rw [hplain] at htrue
        cases htrue
    | false =>
      rw [hclean, if_neg Bool.false_ne_true] at h
      cases hwrite : pkt.cmd.isWrite with
      | false =>
        rw [hwrite, if_neg Bool.false_ne_true] at h
        cases h
      | true =>
        rw [hwrite, if_pos rfl] at h
        have hplain : pkt.plainWrite = true := by
          unfold Packet.plainWrite
          rw [hread, hclean, hwrite]
          simp [hcmd]
        obtain ⟨heffect, hextra⟩ := write_ok hplain h
        exact ⟨heffect, fun _ hllsc => (hextra hllsc).2⟩

theorem access_ok (hserved : pkt.served = true) (h : access inRange m pkt = .ok (m', pkt')) :
    Effect m pkt m' ∧ (pkt.plainWrite = true → pkt.cmd.isLLSC = true →
      pkt'.extraData = some (if allowed m pkt then 1 else 0)) := by
  unfold access at h
  rw [if_pos hserved] at h
  obtain ⟨-, -, h⟩ := bind_eq_ok.mp h
  obtain ⟨⟨m₁, pkt₁⟩, hserve, h⟩ := bind_eq_ok.mp h
  obtain ⟨resp, hresp, h⟩ := bind_eq_ok.mp h
  cases h
  obtain ⟨heffect, hextra⟩ := serve_ok hserve
  refine ⟨heffect, fun hplain hllsc => ?_⟩
  rw [← hextra hplain hllsc]
  unfold respond Packet.makeResponse at hresp
  split_ifs at hresp
  · cases hresp
    rfl
  · cases hresp
    rfl

/-! ## The records and the history -/

/-- **The records are the reservations**, one for each context at most. -/
structure Faithful (s : Run) : Prop where
  nodup : (s.mem.lockedAddrList.map LockedAddr.contextId).Nodup
  mem_iff : ∀ c g, (⟨g, c⟩ : LockedAddr) ∈ s.mem.lockedAddrList ↔ reserved s.hist c g = true

theorem faithful_start (pmem : Bytes) : Faithful (start pmem) where
  nodup := List.nodup_nil
  mem_iff := fun _ _ => iff_of_false List.not_mem_nil Bool.false_ne_true

theorem written_of_loadLocked (h : pkt.loadLocked = true) :
    written m pkt = [] := by
  have hplain : pkt.plainWrite = false := by
    cases hp : pkt.plainWrite with
    | false => rfl
    | true =>
      rw [loadLocked_of_plainWrite hp] at h
      cases h
  unfold Packet.loadLocked at h
  simp only [Bool.and_eq_true, decide_eq_true_eq, ne_eq] at h
  unfold written
  rw [if_neg h.1.1, hplain]
  rfl

/-- The records that an access leaves are those it does not clear. -/
theorem mem_nextRecords {l : LockedAddr} :
    l ∈ nextRecords m pkt ↔ l ∈ m.lockedAddrList ∧ clears m pkt l.addr = false := by
  unfold nextRecords clears
  cases hplain : pkt.plainWrite && allowed m pkt with
  | true =>
    rw [if_pos rfl, List.mem_filter, Bool.true_and, decide_eq_true_eq, ne_eq, beq_eq_false_iff_ne,
      ne_comm (a := mask pkt.addr)]
  | false => simp

/-- **One access keeps the records faithful** when it treats the reservations right. -/
theorem faithful_step {s s' : Run} (h : Faithful s) (hcov : Covered s pkt)
    (hs : step inRange s pkt = .ok s') : Faithful s' := by
  unfold step at hs
  obtain ⟨⟨m', pkt'⟩, haccess, hs⟩ := bind_eq_ok.mp hs
  cases hs
  cases hserved : pkt.served with
  | false =>
    unfold access at haccess
    rw [hserved, if_neg Bool.false_ne_true] at haccess
    cases haccess
    unfold event
    rw [hserved]
    exact h
  | true =>
    have heffect := (access_ok inRange hserved haccess).1
    have hevent : event s.mem pkt =
        some ⟨pkt.contextId, pkt.loadLocked, pkt.addr, written s.mem pkt⟩ := by
      unfold event
      rw [hserved]
      rfl
    rw [hevent, Option.toList_some, List.singleton_append]
    cases hll : pkt.loadLocked with
    | true =>
      obtain ⟨-, c, hc, hnodup, hmem⟩ := trackLoadLocked_ok (heffect.tracked hll) h.nodup
      refine ⟨hnodup, fun c' g => ?_⟩
      show _ ∈ m'.lockedAddrList ↔ _
      rw [hmem, reserved, hc, written_of_loadLocked hll]
      by_cases hcc : c' = c
      · simp [hcc]
      · simp [hcc, Ne.symm hcc, touches, h.mem_iff]
    | false =>
      have hlist := heffect.records hll
      have hsub : m'.lockedAddrList.Sublist s.mem.lockedAddrList := by
        rw [hlist]
        unfold nextRecords
        split_ifs
        · exact List.filter_sublist
        · exact List.Sublist.refl _
      refine ⟨h.nodup.sublist (hsub.map _), fun c g => ?_⟩
      show _ ∈ m'.lockedAddrList ↔ _
      rw [hlist, mem_nextRecords, reserved, Bool.false_and, if_neg Bool.false_ne_true,
        Bool.and_eq_true, Bool.not_eq_true', ← h.mem_iff, and_comm]
      refine and_congr_left fun hmem => ?_
      rw [hcov hserved _ hmem]

theorem allowed_iff {s : Run} (h : Faithful s) {c : ℕ} (hllsc : pkt.cmd.isLLSC = true)
    (hc : pkt.contextId = some c) :
    allowed s.mem pkt = true ↔ reserved s.hist c (mask pkt.addr) = true := by
  unfold allowed
  rw [hllsc, Bool.not_true, Bool.false_or, List.any_eq_true, ← h.mem_iff]
  constructor
  · rintro ⟨l, hl, hmatch⟩
    simp only [Bool.and_eq_true, beq_iff_eq, decide_eq_true_eq, hc, Option.some.injEq] at hmatch
    rw [← hmatch.1, hmatch.2]
    exact hl
  · intro hl
    exact ⟨_, hl, by simp [hc]⟩

/-- What a store conditional does, given whether its context holds the reservation. -/
def StoreCondOutcome (m m' : AbstractMemory) (pkt pkt' : Packet) (holds : Bool) : Prop :=
  if holds then pkt'.extraData = some 1 ∧ m'.pmem = store m.pmem pkt.addr pkt.writeBytes
  else pkt'.extraData = some 0 ∧ m'.pmem = m.pmem ∧ m'.lockedAddrList = m.lockedAddrList

/-- **Store conditionals are atomic** in every run whose accesses treat the reservations
right: a store conditional of context `c` succeeds exactly when `c` holds the granule,
and a failed one changes nothing. -/
theorem storeCond_iff_reserved (inRange : ℕ → ℕ → Bool) (pmem : Bytes) (s : Run)
    (hs : Reached Covered (step inRange) (start pmem) s) (pkt pkt' : Packet) (m' : AbstractMemory)
    (c : ℕ) (hplain : pkt.plainWrite = true) (hllsc : pkt.cmd.isLLSC = true)
    (hc : pkt.contextId = some c) (hserved : pkt.served = true)
    (h : access inRange s.mem pkt = .ok (m', pkt')) :
    StoreCondOutcome s.mem m' pkt pkt' (reserved s.hist c (mask pkt.addr)) := by
  have hfaithful : Faithful s :=
    hs.invariant (fun _ _ _ hinv hcov hstep => faithful_step inRange hinv hcov hstep)
      (faithful_start pmem)
  obtain ⟨heffect, hextra⟩ := access_ok inRange hserved h
  have hallowed := allowed_iff hfaithful hllsc hc
  have hcmd : pkt.cmd ≠ .SwapReq := fun heq => by
    rw [plainWrite_of_swap heq] at hplain
    cases hplain
  have hpmem := heffect.pmem
  have hrecords := heffect.records (loadLocked_of_plainWrite hplain)
  have hdata := hextra hplain hllsc
  unfold written at hpmem
  unfold nextRecords at hrecords
  rw [if_neg hcmd, hplain, Bool.true_and] at hpmem
  rw [hplain, Bool.true_and] at hrecords
  unfold StoreCondOutcome
  cases hholds : reserved s.hist c (mask pkt.addr) with
  | true =>
      have hyes := hallowed.mpr hholds
      rw [hyes, if_pos rfl] at hpmem hdata
      exact ⟨hdata, hpmem⟩
  | false =>
      have hno : allowed s.mem pkt = false := by
        rw [Bool.eq_false_iff]
        intro hyes
        rw [hallowed.mp hyes] at hholds
        cases hholds
      rw [hno, if_neg Bool.false_ne_true] at hpmem hrecords hdata
      rw [store_nil] at hpmem
      exact ⟨hdata, hpmem, hrecords⟩

/-- An access of four bytes. -/
def fourBytes (cmd : MemCmd) (addr contextId : ℕ) : Packet where
  cmd := cmd
  addr := addr
  data := [1, 2, 3, 4]
  byteEnable := []
  contextId := some contextId
  atomicOp := none
  isCondSwap := false
  isInstFetch := false
  extraData := none
  cacheResponding := false

theorem storeCond_iff_reserved_pair :
    ∃ s, run (step fun _ _ => true) (start fun _ => 0)
        [fourBytes .LoadLockedReq 32 0, fourBytes .WriteReq 16 1] = .ok s ∧
      ∀ pkt' m', access (fun _ _ => true) s.mem (fourBytes .StoreCondReq 36 0) = .ok (m', pkt') →
        StoreCondOutcome s.mem m' (fourBytes .StoreCondReq 36 0) pkt'
          (reserved s.hist 0 (mask 36)) := by
  obtain ⟨s, hs, -⟩ : ∃ s, run (step fun _ _ => true) (start fun _ => 0)
      [fourBytes .LoadLockedReq 32 0, fourBytes .WriteReq 16 1] = .ok s ∧
        s.mem.lockedAddrList = [⟨32, 0⟩] := by decide +kernel
  refine ⟨s, hs, fun pkt' m' h => ?_⟩
  exact storeCond_iff_reserved _ _ s ⟨_, by decide +kernel, hs⟩ _ pkt' m' 0 (by decide) (by decide)
    rfl (by decide) h

/-- **A swap does not end a reservation**: after a swap of another context into the
granule the store conditional succeeds although the reservation is gone. -/
theorem storeCond_after_swap :
    ¬ ∀ (inRange : ℕ → ℕ → Bool) (pmem : Bytes) (s : Run),
      Reached (fun _ _ => True) (step inRange) (start pmem) s →
        ∀ (pkt pkt' : Packet) (m' : AbstractMemory) (c : ℕ), pkt.plainWrite = true →
          pkt.cmd.isLLSC = true → pkt.contextId = some c → pkt.served = true →
            access inRange s.mem pkt = .ok (m', pkt') →
              StoreCondOutcome s.mem m' pkt pkt' (reserved s.hist c (mask pkt.addr)) := by
  intro h
  obtain ⟨s, hs, hbad⟩ : ∃ s, run (step fun _ _ => true) (start fun _ => 0)
      [fourBytes .LoadLockedReq 32 0, fourBytes .SwapReq 32 1] = .ok s ∧
        reserved s.hist 0 (mask 32) = false ∧
          ∃ r, access (fun _ _ => true) s.mem (fourBytes .StoreCondReq 32 0) = .ok r ∧
            r.2.extraData = some 1 := by decide +kernel
  obtain ⟨hgone, ⟨m', pkt'⟩, haccess, hextra⟩ := hbad
  have hout := h _ _ s ⟨_, by decide +kernel, hs⟩ (fourBytes .StoreCondReq 32 0) pkt' m' 0
    (by decide) (by decide) rfl (by decide) haccess
  change StoreCondOutcome _ _ _ _ (reserved s.hist 0 (mask 32)) at hout
  rw [hgone] at hout
  have hzero : pkt'.extraData = some 0 := hout.1
  change pkt'.extraData = some 1 at hextra
  rw [hextra] at hzero
  cases hzero

end Gem5.Mem.LockedMem
