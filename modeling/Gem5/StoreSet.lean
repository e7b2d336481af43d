/-
# The store set predictor

Embedding of `cpu/o3/store_set.cc`.  A load and a store that were executed out of order get a common
store set, by their program counters (`SSIT`); a set remembers the store that was fetched last
(`LFST`), on which the next load of the set will wait.

A set forgets a store when it issues or is squashed, but issuing looks for the set under the program
counter of the store, which a violation may have moved to another set since the store was inserted.
As long as no store issues after such a move, every store that a set remembers is outstanding
(`lfst_outstanding`), and a squash terminates and leaves nothing younger behind (`squash_complete`).
-/
import Gem5.Runs
import Gem5.Types

namespace Gem5

open Runs

/-! ## Data model -/

/-- `std::map<InstSeqNum, int, ltseqnum>`: the entries, the youngest first. -/
structure SeqNumMap where
  entries : List (InstSeqNum × ℕ)
  sorted : entries.Pairwise fun e f => f.1 < e.1

namespace SeqNumMap

def empty : SeqNumMap := ⟨[], .nil⟩

/-- `map[seq] = value` -/
def set (m : SeqNumMap) (seq : InstSeqNum) (value : ℕ) : SeqNumMap where
  entries := m.entries.filter (fun e => seq < e.1) ++
    (seq, value) :: m.entries.filter fun e => e.1 < seq
  sorted := by
    refine List.pairwise_append.mpr ⟨m.sorted.filter _, List.pairwise_cons.mpr
      ⟨fun f hf => of_decide_eq_true (List.mem_filter.mp hf).2, m.sorted.filter _⟩, ?_⟩
    intro e he f hf
    have hlow : seq < e.1 := of_decide_eq_true (List.mem_filter.mp he).2
    rcases List.mem_cons.mp hf with rfl | hf
    · exact hlow
    · exact (of_decide_eq_true (List.mem_filter.mp hf).2 : f.1 < seq).trans hlow

/-- `map.erase(map.find(seq))` -/
def erase (m : SeqNumMap) (seq : InstSeqNum) : SeqNumMap where
  entries := m.entries.filter fun e => e.1 ≠ seq
  sorted := m.sorted.filter _

/-- `map.erase(map.begin())` -/
def eraseFirst (m : SeqNumMap) : SeqNumMap where
  entries := m.entries.tail
  sorted := m.sorted.sublist (List.tail_sublist _)

instance : Membership (InstSeqNum × ℕ) SeqNumMap := ⟨fun m e => e ∈ m.entries⟩

variable {m : SeqNumMap} {seq : InstSeqNum} {value : ℕ} {e : InstSeqNum × ℕ}

theorem mem_def : e ∈ m ↔ e ∈ m.entries := Iff.rfl

theorem eraseFirst_entries {rest : List (InstSeqNum × ℕ)} (h : m.entries = e :: rest) :
    m.eraseFirst.entries = rest := congrArg List.tail h

theorem not_mem_empty : e ∉ empty := List.not_mem_nil

theorem mem_set : e ∈ m.set seq value ↔ e = (seq, value) ∨ e ∈ m ∧ e.1 ≠ seq := by
  rw [mem_def, set, List.mem_append, List.mem_cons, List.mem_filter, List.mem_filter,
    decide_eq_true_iff, decide_eq_true_iff, mem_def]
  constructor
  · rintro (⟨he, hlt⟩ | rfl | ⟨he, hlt⟩)
    · exact .inr ⟨he, hlt.ne'⟩
    · exact .inl rfl
    · exact .inr ⟨he, hlt.ne⟩
  · rintro (rfl | ⟨he, hne⟩)
    · exact .inr (.inl rfl)
    · rcases Nat.lt_or_gt_of_ne hne with hlt | hlt
      · exact .inr (.inr ⟨he, hlt⟩)
      · exact .inl ⟨he, hlt⟩

theorem mem_erase : e ∈ m.erase seq ↔ e ∈ m ∧ e.1 ≠ seq := by
  rw [mem_def, erase, List.mem_filter, decide_eq_true_iff, mem_def]

end SeqNumMap

/-- The sizes of the tables, and the number of memory operations after which they are cleared. -/
structure StoreSet.Params where
  clearPeriod : ℕ
  SSITSize : ℕ
  LFSTSize : ℕ
  SSITSize_pos : 0 < SSITSize
  LFSTSize_pos : 0 < LFSTSize

/-- The predictor. -/
structure StoreSet where
  SSIT : ℕ → ℕ
  validSSIT : ℕ → Bool
  LFST : ℕ → InstSeqNum
  validLFST : ℕ → Bool
  storeList : SeqNumMap
  memOpsPred : ℕ

namespace StoreSet

/-- The assertions, and a loop that does not end. -/
inductive Fault where
  /-- `assert(index < SSITSize)` -/
  | badIndex
  /-- `assert(SSID < LFSTSize)` -/
  | badSSID
  /-- `squash` loops for ever -/
  | squashHangs
  deriving DecidableEq, Repr

/-- `StoreSet::init` -/
def init : StoreSet := ⟨fun _ => 0, fun _ => false, fun _ => 0, fun _ => false, .empty, 0⟩

/-- `StoreSet::calcIndex` -/
def calcIndex (p : Params) (PC : ℕ) : ℕ := (PC >>> 2) &&& (p.SSITSize - 1)

/-- `StoreSet::calcSSID` -/
def calcSSID (p : Params) (PC : ℕ) : ℕ := (PC ^^^ (PC >>> 10)) % p.LFSTSize

/-! ## Operations -/

/-- `StoreSet::clear` -/
def clear (s : StoreSet) : StoreSet :=
  { s with
    validSSIT := fun _ => false
    validLFST := fun _ => false
    storeList := .empty }

/-- `StoreSet::checkClear` -/
def checkClear (p : Params) (s : StoreSet) : StoreSet :=
  if s.memOpsPred + 1 > p.clearPeriod then { s with memOpsPred := 0 }.clear
  else { s with memOpsPred := s.memOpsPred + 1 }

/-- `SSIT[index] = ssid`, of a valid entry. -/
def assign (s : StoreSet) (index ssid : ℕ) : StoreSet :=
  { s with
    SSIT := Function.update s.SSIT index ssid
    validSSIT := Function.update s.validSSIT index true }

/-- `StoreSet::violation` -/
def violation (p : Params) (s : StoreSet) (store_PC load_PC : ℕ) : Except Fault StoreSet := do
  let load_index := calcIndex p load_PC
  let store_index := calcIndex p store_PC
  require .badIndex (load_index < p.SSITSize && store_index < p.SSITSize)
  match s.validSSIT load_index, s.validSSIT store_index with
  | false, false =>
      let new_set := calcSSID p load_PC
      require .badSSID (new_set < p.LFSTSize)
      .ok ((s.assign load_index new_set).assign store_index new_set)
  | true, false =>
      let load_SSID := s.SSIT load_index
      require .badSSID (load_SSID < p.LFSTSize)
      .ok (s.assign store_index load_SSID)
  | false, true => .ok (s.assign load_index (s.SSIT store_index))
  | true, true =>
      let load_SSID := s.SSIT load_index
      let store_SSID := s.SSIT store_index
      require .badSSID (load_SSID < p.LFSTSize && store_SSID < p.LFSTSize)
      -- the store set with the lower number wins
      if store_SSID > load_SSID then .ok (s.assign store_index load_SSID)
      else .ok (s.assign load_index store_SSID)

/-- `StoreSet::insertLoad` -/
def insertLoad (p : Params) (s : StoreSet) : StoreSet := s.checkClear p

/-- `StoreSet::insertStore` -/
def insertStore (p : Params) (s : StoreSet) (store_PC : ℕ) (store_seq_num : InstSeqNum) :
    Except Fault StoreSet := do
  let index := calcIndex p store_PC
  let s := s.checkClear p
  require .badIndex (index < p.SSITSize)
  if s.validSSIT index then
    let store_SSID := s.SSIT index
    require .badSSID (store_SSID < p.LFSTSize)
    .ok { s with
      LFST := Function.update s.LFST store_SSID store_seq_num
      validLFST := Function.update s.validLFST store_SSID true
      storeList := s.storeList.set store_seq_num store_SSID }
  else .ok s

/-- `StoreSet::checkInst` -/
def checkInst (p : Params) (s : StoreSet) (PC : ℕ) : Except Fault InstSeqNum := do
  let index := calcIndex p PC
  require .badIndex (index < p.SSITSize)
  if s.validSSIT index then
    let inst_SSID := s.SSIT index
    require .badSSID (inst_SSID < p.LFSTSize)
    if s.validLFST inst_SSID then .ok (s.LFST inst_SSID) else .ok 0
  else .ok 0

/-- `StoreSet::issued` -/
def issued (p : Params) (s : StoreSet) (issued_PC : ℕ) (issued_seq_num : InstSeqNum)
    (is_store : Bool) : Except Fault StoreSet := do
  if is_store then
    let index := calcIndex p issued_PC
    require .badIndex (index < p.SSITSize)
    let s := { s with storeList := s.storeList.erase issued_seq_num }
    if s.validSSIT index then
      let store_SSID := s.SSIT index
      require .badSSID (store_SSID < p.LFSTSize)
      if s.validLFST store_SSID && s.LFST store_SSID == issued_seq_num then
        .ok { s with validLFST := Function.update s.validLFST store_SSID false }
      else .ok s
    else .ok s
  else .ok s

/-- One round of the loop of `squash`, which reads the first entry; `none` at its end. -/
def squashRound (s : StoreSet) (squashed_num : InstSeqNum) : Option StoreSet :=
  match s.storeList.entries with
  | [] => none
  | (first, idx) :: _ =>
      if first ≤ squashed_num then none
      else
        let younger := s.LFST idx > squashed_num
        if s.validLFST idx && younger then
          some { s with
            validLFST := Function.update s.validLFST idx false
            storeList := s.storeList.eraseFirst }
        else if !s.validLFST idx && younger then
          some { s with storeList := s.storeList.eraseFirst }
        -- nothing changes, and the next round is the same
        else some s

/-- The loop of `squash` for a number of rounds; `none` if it has not ended by then. -/
def squashLoop : ℕ → StoreSet → InstSeqNum → Option StoreSet
  | 0, _, _ => none
  | rounds + 1, s, squashed_num =>
      match s.squashRound squashed_num with
      | none => some s
      | some s' => squashLoop rounds s' squashed_num

/-- `StoreSet::squash` -/
def squash (s : StoreSet) (squashed_num : InstSeqNum) : Except Fault StoreSet :=
  orFail .squashHangs (squashLoop (s.storeList.entries.length + 1) s squashed_num)

/-- What the memory dependence unit does to the predictor. -/
inductive Action where
  | insertLoad
  | insertStore (store_PC : ℕ) (store_seq_num : InstSeqNum)
  | checkInst (PC : ℕ)
  | issued (issued_PC : ℕ) (issued_seq_num : InstSeqNum) (is_store : Bool)
  | violation (store_PC load_PC : ℕ)
  | squash (squashed_num : InstSeqNum)
  | clear
  deriving DecidableEq, Repr

def step (p : Params) (s : StoreSet) : Action → Except Fault StoreSet
  | .insertLoad => .ok (s.insertLoad p)
  | .insertStore store_PC store_seq_num => s.insertStore p store_PC store_seq_num
  | .checkInst PC => (s.checkInst p PC).map fun _ => s
  | .issued issued_PC issued_seq_num is_store => s.issued p issued_PC issued_seq_num is_store
  | .violation store_PC load_PC => s.violation p store_PC load_PC
  | .squash squashed_num => s.squash squashed_num
  | .clear => .ok s.clear

/-- The number of the store that an action inserts. -/
def Action.inserted : Action → Option InstSeqNum
  | .insertStore _ store_seq_num => some store_seq_num
  | _ => none

/-! ## Single operations -/

section

variable {p : Params} {s t : StoreSet} {PC : ℕ} {seq n : InstSeqNum}

theorem calcIndex_lt (p : Params) (PC : ℕ) : calcIndex p PC < p.SSITSize :=
  Nat.lt_of_le_of_lt Nat.and_le_right (Nat.sub_one_lt p.SSITSize_pos.ne')

/-- The store sets that are assigned are in the table. -/
def Assigned (p : Params) (s : StoreSet) : Prop :=
  ∀ index, s.validSSIT index = true → s.SSIT index < p.LFSTSize

theorem Assigned.assign (h : s.Assigned p) {index ssid : ℕ} (hssid : ssid < p.LFSTSize) :
    (s.assign index ssid).Assigned p := by
  intro i hi
  by_cases heq : i = index
  · rw [heq]
    exact (Function.update_self index ssid s.SSIT).trans_lt hssid
  · have hold : s.validSSIT i = true := by
      rw [← hi]
      exact (Function.update_of_ne heq true s.validSSIT).symm
    exact (Function.update_of_ne heq ssid s.SSIT).trans_lt (h i hold)

theorem Assigned.clear (p : Params) (s : StoreSet) : s.clear.Assigned p :=
  fun _ hi => nomatch hi

theorem Assigned.checkClear (h : s.Assigned p) : (s.checkClear p).Assigned p := by
  rw [StoreSet.checkClear]
  split
  · exact .clear p _
  · exact h

/-- Two states agree on the stores, whatever sets the program counters have. -/
def SameStores (s t : StoreSet) : Prop :=
  t.LFST = s.LFST ∧ t.validLFST = s.validLFST ∧ t.storeList = s.storeList

/-- **A violation** only assigns store sets. -/
theorem violation_same {store_PC load_PC : ℕ} (h : s.violation p store_PC load_PC = .ok t) :
    s.SameStores t := by
  rw [violation] at h
  obtain ⟨-, -, h⟩ := bind_eq_ok.mp h
  split at h
  · obtain ⟨-, -, h⟩ := bind_eq_ok.mp h
    cases h
    exact ⟨rfl, rfl, rfl⟩
  · obtain ⟨-, -, h⟩ := bind_eq_ok.mp h
    cases h
    exact ⟨rfl, rfl, rfl⟩
  · cases h
    exact ⟨rfl, rfl, rfl⟩
  · obtain ⟨-, -, h⟩ := bind_eq_ok.mp h
    split at h <;> cases h <;> exact ⟨rfl, rfl, rfl⟩

/-- The store sets it assigns are in the table. -/
theorem violation_returns (h : s.Assigned p) (store_PC load_PC : ℕ) :
    ∃ t, s.violation p store_PC load_PC = .ok t ∧ t.Assigned p := by
  have hindex : (decide (calcIndex p load_PC < p.SSITSize) &&
      decide (calcIndex p store_PC < p.SSITSize)) = true := by
    rw [decide_eq_true (calcIndex_lt p load_PC), decide_eq_true (calcIndex_lt p store_PC)]
    rfl
  have hnew : calcSSID p load_PC < p.LFSTSize := Nat.mod_lt _ p.LFSTSize_pos
  rw [violation]
  cases hload : s.validSSIT (calcIndex p load_PC) with
  | false =>
    cases hstore : s.validSSIT (calcIndex p store_PC) with
    | false =>
      exact ⟨_, bind_eq_ok.mpr ⟨(), require_ok hindex, bind_eq_ok.mpr ⟨(),
        require_ok (decide_eq_true hnew), rfl⟩⟩, (h.assign hnew).assign hnew⟩
    | true =>
      exact ⟨_, bind_eq_ok.mpr ⟨(), require_ok hindex, rfl⟩, h.assign (h _ hstore)⟩
  | true =>
    have hssid := h _ hload
    cases hstore : s.validSSIT (calcIndex p store_PC) with
    | false =>
      exact ⟨_, bind_eq_ok.mpr ⟨(), require_ok hindex, bind_eq_ok.mpr ⟨(),
        require_ok (decide_eq_true hssid), rfl⟩⟩, h.assign hssid⟩
    | true =>
      have hboth : (decide (s.SSIT (calcIndex p load_PC) < p.LFSTSize) &&
          decide (s.SSIT (calcIndex p store_PC) < p.LFSTSize)) = true := by
        rw [decide_eq_true hssid, decide_eq_true (h _ hstore)]
        rfl
      by_cases hgt : s.SSIT (calcIndex p store_PC) > s.SSIT (calcIndex p load_PC)
      · exact ⟨_, bind_eq_ok.mpr ⟨(), require_ok hindex, bind_eq_ok.mpr ⟨(),
          require_ok hboth, if_pos hgt⟩⟩, h.assign hssid⟩
      · exact ⟨_, bind_eq_ok.mpr ⟨(), require_ok hindex, bind_eq_ok.mpr ⟨(),
          require_ok hboth, if_neg hgt⟩⟩, h.assign (h _ hstore)⟩

/-- **Inserting a store** records it in the set of its program counter. -/
theorem insertStore_spec (h : (s.checkClear p).Assigned p) (PC : ℕ) (seq : InstSeqNum) :
    s.insertStore p PC seq = .ok (
      let c := s.checkClear p
      if c.validSSIT (calcIndex p PC) then
        { c with
          LFST := Function.update c.LFST (c.SSIT (calcIndex p PC)) seq
          validLFST := Function.update c.validLFST (c.SSIT (calcIndex p PC)) true
          storeList := c.storeList.set seq (c.SSIT (calcIndex p PC)) }
      else c) := by
  rw [insertStore]
  refine bind_eq_ok.mpr ⟨(), require_ok (decide_eq_true (calcIndex_lt p PC)), ?_⟩
  dsimp only
  cases hvalid : (s.checkClear p).validSSIT (calcIndex p PC) with
  | false => rfl
  | true =>
    exact bind_eq_ok.mpr ⟨(), require_ok (decide_eq_true (h _ hvalid)), rfl⟩

/-- **A prediction** is the store that the set of the instruction remembers. -/
theorem checkInst_spec (h : s.Assigned p) (PC : ℕ) :
    s.checkInst p PC = .ok (
      if s.validSSIT (calcIndex p PC) && s.validLFST (s.SSIT (calcIndex p PC)) then
        s.LFST (s.SSIT (calcIndex p PC))
      else 0) := by
  rw [checkInst]
  refine bind_eq_ok.mpr ⟨(), require_ok (decide_eq_true (calcIndex_lt p PC)), ?_⟩
  cases hvalid : s.validSSIT (calcIndex p PC) with
  | false => rfl
  | true =>
    refine bind_eq_ok.mpr ⟨(), require_ok (decide_eq_true (h _ hvalid)), ?_⟩
    cases s.validLFST (s.SSIT (calcIndex p PC)) <;> rfl

/-- **Issuing a store** strikes it off, and makes the set that its program counter has now forget
it. -/
theorem issued_spec (h : s.Assigned p) (PC : ℕ) (seq : InstSeqNum) :
    ∃ valid, s.issued p PC seq true =
        .ok { s with validLFST := valid, storeList := s.storeList.erase seq } ∧
      ∀ idx, valid idx = true ↔ s.validLFST idx = true ∧
        ¬ (s.validSSIT (calcIndex p PC) = true ∧ s.SSIT (calcIndex p PC) = idx ∧
          s.LFST idx = seq) := by
  rw [issued, if_pos rfl]
  cases hvalid : s.validSSIT (calcIndex p PC) with
  | false =>
    refine ⟨s.validLFST, bind_eq_ok.mpr ⟨(), require_ok (decide_eq_true (calcIndex_lt p PC)), ?_⟩,
      fun idx => (and_iff_left fun hc => Bool.false_ne_true hc.1).symm⟩
    exact if_neg (by rw [hvalid]; exact Bool.false_ne_true)
  | true =>
    have hssid := h _ hvalid
    generalize hset : s.SSIT (calcIndex p PC) = ssid at hssid
    cases hnames : s.validLFST ssid && s.LFST ssid == seq with
    | false =>
      refine ⟨s.validLFST, bind_eq_ok.mpr ⟨(), require_ok (decide_eq_true (calcIndex_lt p PC)),
        ?_⟩, fun idx => (and_iff_left_of_imp fun hidx hc => ?_).symm⟩
      · dsimp only
        rw [if_pos hvalid, hset]
        refine bind_eq_ok.mpr ⟨(), require_ok (decide_eq_true hssid), ?_⟩
        rw [hnames]
        rfl
      · obtain ⟨-, rfl, hseq⟩ := hc
        rw [hidx, hseq, beq_self_eq_true] at hnames
        exact Bool.false_ne_true hnames.symm
    | true =>
      have hseq : s.LFST ssid = seq := by
        rw [Bool.and_eq_true] at hnames
        exact beq_iff_eq.mp hnames.2
      refine ⟨Function.update s.validLFST ssid false, bind_eq_ok.mpr ⟨(),
        require_ok (decide_eq_true (calcIndex_lt p PC)), ?_⟩, fun idx => ?_⟩
      · dsimp only
        rw [if_pos hvalid, hset]
        refine bind_eq_ok.mpr ⟨(), require_ok (decide_eq_true hssid), ?_⟩
        rw [hnames]
        rfl
      · by_cases heq : idx = ssid
        · rw [heq, Function.update_self]
          exact ⟨nofun, fun hc => absurd ⟨rfl, rfl, hseq⟩ hc.2⟩
        · rw [Function.update_of_ne heq]
          exact (and_iff_left fun hc => heq hc.2.1.symm).symm

end

/-! ## The loop of a squash -/

section

variable {s s' t : StoreSet} {n : InstSeqNum}

/-- **One round** takes the youngest entry out and makes its set forget its store, or changes
nothing. -/
theorem squashRound_some (h : s.squashRound n = some t) :
    ∃ first idx rest, s.storeList.entries = (first, idx) :: rest ∧ n < first ∧
      (n < s.LFST idx ∧ t = { s with
          validLFST := Function.update s.validLFST idx false
          storeList := s.storeList.eraseFirst } ∨
        ¬ n < s.LFST idx ∧ t = s) := by
  rw [squashRound] at h
  cases hentries : s.storeList.entries with
  | nil =>
    rw [hentries] at h
    cases h
  | cons entry rest =>
    obtain ⟨first, idx⟩ := entry
    rw [hentries] at h
    dsimp only at h
    by_cases hfirst : first ≤ n
    · rw [if_pos hfirst] at h
      cases h
    refine ⟨first, idx, rest, rfl, Nat.not_le.mp hfirst, ?_⟩
    rw [if_neg hfirst] at h
    by_cases hyounger : n < s.LFST idx
    · rw [decide_eq_true hyounger] at h
      refine .inl ⟨hyounger, ?_⟩
      cases hvalid : s.validLFST idx with
      | true =>
        rw [hvalid] at h
        exact (Option.some.inj h).symm
      | false =>
        rw [hvalid] at h
        rw [← hvalid, Function.update_eq_self]
        exact (Option.some.inj h).symm
    · rw [decide_eq_false hyounger, Bool.and_false, Bool.and_false] at h
      exact .inr ⟨hyounger, (Option.some.inj h).symm⟩

/-- The loop ends where no entry is younger than the squash. -/
theorem squashRound_none (h : s.squashRound n = none) : ∀ e ∈ s.storeList, e.1 ≤ n := by
  rw [squashRound] at h
  intro e he
  rw [SeqNumMap.mem_def] at he
  have hsorted := s.storeList.sorted
  cases hentries : s.storeList.entries with
  | nil =>
    rw [hentries] at he
    exact absurd he List.not_mem_nil
  | cons entry rest =>
    obtain ⟨first, idx⟩ := entry
    rw [hentries] at h he hsorted
    dsimp only at h
    by_cases hfirst : first ≤ n
    · rcases List.mem_cons.mp he with rfl | he
      · exact hfirst
      · exact ((List.pairwise_cons.mp hsorted).1 e he).le.trans hfirst
    · rw [if_neg hfirst] at h
      split at h
      · cases h
      · split at h <;> cases h

/-- **What the loop leaves**: the entries up to `n`, and the sets that remember no younger store, or
have no younger entry. -/
theorem squashLoop_spec {rounds : ℕ} (h : squashLoop rounds s n = some s') :
    ∃ valid list, s' = { s with validLFST := valid, storeList := list } ∧
      (∀ e, e ∈ list ↔ e ∈ s.storeList ∧ e.1 ≤ n) ∧
      ∀ idx, valid idx = true ↔ s.validLFST idx = true ∧
        ¬ (n < s.LFST idx ∧ ∃ e ∈ s.storeList, n < e.1 ∧ e.2 = idx) := by
  induction rounds generalizing s with
  | zero => cases h
  | succ rounds ih =>
    rw [squashLoop] at h
    cases hround : s.squashRound n with
    | none =>
      rw [hround] at h
      have hold := squashRound_none hround
      refine ⟨s.validLFST, s.storeList, (Option.some.inj h).symm,
        fun e => (and_iff_left_of_imp (hold e)).symm, fun idx => (and_iff_left ?_).symm⟩
      rintro ⟨-, e, he, hlt, -⟩
      exact absurd (hold e he) (Nat.not_le.mpr hlt)
    | some t =>
      rw [hround] at h
      obtain ⟨first, idx, rest, hentries, hfirst, ⟨hyounger, rfl⟩ | ⟨-, rfl⟩⟩ :=
        squashRound_some hround
      · obtain ⟨valid, list, rfl, hlist, hvalid⟩ := ih h
        have htail := SeqNumMap.eraseFirst_entries hentries
        have hmem : ∀ e, e ∈ s.storeList ↔ e = (first, idx) ∨ e ∈ s.storeList.eraseFirst := by
          intro e
          rw [SeqNumMap.mem_def, SeqNumMap.mem_def, htail, hentries, List.mem_cons]
        refine ⟨valid, list, rfl, fun e => ?_, fun i => ?_⟩
        · rw [hlist e, hmem e, or_and_right]
          refine (or_iff_right ?_).symm
          rintro ⟨rfl, hle⟩
          exact absurd hle (Nat.not_le.mpr hfirst)
        · rw [hvalid i]
          dsimp only
          by_cases hi : i = idx
          · rw [hi, Function.update_self]
            exact ⟨fun hc => absurd hc.1 Bool.false_ne_true,
              fun hc => absurd ⟨hyounger, (first, idx), (hmem _).mpr (.inl rfl), hfirst, rfl⟩
                hc.2⟩
          · rw [Function.update_of_ne hi]
            refine and_congr_right fun _ => not_congr (and_congr_right fun _ => ?_)
            constructor
            · rintro ⟨e, he, hlt, heq⟩
              exact ⟨e, (hmem e).mpr (.inr he), hlt, heq⟩
            · rintro ⟨e, he, hlt, heq⟩
              rcases (hmem e).mp he with rfl | he
              · exact absurd heq.symm hi
              · exact ⟨e, he, hlt, heq⟩
      · exact ih h

/-- An entry is not younger than the last store that its set was given. -/
def Fetched (s : StoreSet) : Prop := ∀ e ∈ s.storeList, e.1 ≤ s.LFST e.2

/-- **Termination**: every round of the loop takes an entry out. -/
theorem squashLoop_ends (h : s.Fetched) (n : InstSeqNum) {rounds : ℕ}
    (hrounds : s.storeList.entries.length < rounds) : ∃ s', squashLoop rounds s n = some s' := by
  induction rounds generalizing s with
  | zero => exact absurd hrounds (Nat.not_lt_zero _)
  | succ rounds ih =>
    rw [squashLoop]
    cases hround : s.squashRound n with
    | none => exact ⟨s, rfl⟩
    | some t =>
      obtain ⟨first, idx, rest, hentries, hfirst, ⟨-, rfl⟩ | ⟨hold, -⟩⟩ :=
        squashRound_some hround
      · have hsub : ∀ e ∈ s.storeList.eraseFirst, e ∈ s.storeList :=
          fun e he => List.mem_of_mem_tail he
        refine ih (fun e he => h e (hsub e he)) ?_
        rw [SeqNumMap.eraseFirst_entries hentries]
        rw [hentries, List.length_cons] at hrounds
        exact Nat.lt_of_succ_lt_succ hrounds
      · have hmem : (first, idx) ∈ s.storeList := by
          rw [SeqNumMap.mem_def, hentries]
          exact List.mem_cons_self
        exact absurd (hfirst.trans_le (h _ hmem)) hold

/-- A loop that ends at all ends within the rounds that `squash` allows it. -/
theorem squash_of_loop {rounds : ℕ} (h : squashLoop rounds s n = some s') :
    s.squash n = .ok s' := by
  refine orFail_eq_ok.mpr ?_
  induction rounds generalizing s with
  | zero => cases h
  | succ rounds ih =>
    have hfirst := h
    rw [squashLoop] at h
    cases hround : s.squashRound n with
    | none =>
      rw [hround] at h
      rw [squashLoop, hround]
      exact h
    | some t =>
      rw [hround] at h
      obtain ⟨first, idx, rest, hentries, -, ⟨-, rfl⟩ | ⟨-, rfl⟩⟩ := squashRound_some hround
      · have hlength : s.storeList.entries.length =
            s.storeList.eraseFirst.entries.length + 1 := by
          rw [SeqNumMap.eraseFirst_entries hentries, hentries, List.length_cons]
        rw [hlength, squashLoop, hround]
        exact ih h
      · exact ih h

end

/-! ## Steps -/

section

variable {p : Params} {s t : StoreSet} {a : Action}

/-- The tables are within their sizes. -/
structure Sized (p : Params) (s : StoreSet) : Prop where
  ssit : s.Assigned p
  lfst : ∀ idx, s.validLFST idx = true → idx < p.LFSTSize

theorem Sized.clear (p : Params) (s : StoreSet) : s.clear.Sized p :=
  ⟨.clear p s, fun _ h => nomatch h⟩

theorem Sized.checkClear (h : s.Sized p) : (s.checkClear p).Sized p := by
  rw [StoreSet.checkClear]
  split
  · exact .clear p _
  · exact ⟨h.ssit, h.lfst⟩

/-- **Every step** returns, unless a squash hangs. -/
theorem step_returns (h : s.Sized p) (hends : ∀ n, a = .squash n → ∃ t, s.squash n = .ok t) :
    ∃ t, step p s a = .ok t := by
  cases a with
  | insertLoad => exact ⟨_, rfl⟩
  | insertStore PC seq => exact ⟨_, insertStore_spec h.ssit.checkClear PC seq⟩
  | checkInst PC => exact ⟨s, by rw [step, checkInst_spec h.ssit]; rfl⟩
  | issued PC seq is_store =>
    cases is_store with
    | false => exact ⟨s, rfl⟩
    | true =>
      obtain ⟨valid, hissued, -⟩ := issued_spec h.ssit PC seq
      exact ⟨_, hissued⟩
  | violation store_PC load_PC =>
    obtain ⟨t, ht, -⟩ := violation_returns h.ssit store_PC load_PC
    exact ⟨t, ht⟩
  | squash n => exact hends n rfl
  | clear => exact ⟨_, rfl⟩

theorem step_sized (h : s.Sized p) (hstep : step p s a = .ok t) : t.Sized p := by
  cases a with
  | insertLoad =>
    cases hstep
    exact h.checkClear
  | insertStore PC seq =>
    have hclear := h.checkClear
    rw [step, insertStore_spec hclear.ssit] at hstep
    cases hstep
    dsimp only
    split
    · next hvalid =>
      refine ⟨hclear.ssit, fun idx hidx => ?_⟩
      by_cases heq : idx = (s.checkClear p).SSIT (calcIndex p PC)
      · rw [heq]
        exact hclear.ssit _ hvalid
      · dsimp only at hidx
        rw [Function.update_of_ne heq] at hidx
        exact hclear.lfst idx hidx
    · exact hclear
  | checkInst PC =>
    rw [step, checkInst_spec h.ssit] at hstep
    cases hstep
    exact h
  | issued PC seq is_store =>
    cases is_store with
    | false =>
      cases hstep
      exact h
    | true =>
      obtain ⟨valid, hissued, hvalid⟩ := issued_spec h.ssit PC seq
      cases hissued.symm.trans hstep
      exact ⟨h.ssit, fun idx hidx => h.lfst idx ((hvalid idx).mp hidx).1⟩
  | violation store_PC load_PC =>
    obtain ⟨t', ht', hssit⟩ := violation_returns h.ssit store_PC load_PC
    cases ht'.symm.trans hstep
    obtain ⟨-, hvalid, -⟩ := violation_same ht'
    exact ⟨hssit, fun idx hidx => h.lfst idx (hvalid ▸ hidx)⟩
  | squash n =>
    obtain ⟨valid, list, rfl, -, hvalid⟩ := squashLoop_spec (orFail_eq_ok.mp hstep)
    exact ⟨h.ssit, fun idx hidx => h.lfst idx ((hvalid idx).mp hidx).1⟩
  | clear =>
    cases hstep
    exact .clear p s

theorem sized_init (p : Params) : init.Sized p := .clear p init

/-- **What is listed** was listed before, and did not issue, or was just inserted. -/
theorem step_listed (hstep : step p s a = .ok t) {e : InstSeqNum × ℕ} (he : e ∈ t.storeList) :
    (e ∈ s.storeList ∧ ∀ PC, a ≠ .issued PC e.1 true) ∨ a.inserted = some e.1 := by
  have hcleared : ∀ {e}, e ∈ (s.checkClear p).storeList → e ∈ s.storeList := by
    intro e he
    rw [StoreSet.checkClear] at he
    split at he
    · exact absurd he SeqNumMap.not_mem_empty
    · exact he
  cases a with
  | insertLoad =>
    cases hstep
    exact .inl ⟨hcleared he, fun _ => nofun⟩
  | insertStore PC seq =>
    rw [step, insertStore] at hstep
    obtain ⟨-, -, hstep⟩ := bind_eq_ok.mp hstep
    dsimp only at hstep
    split at hstep
    · obtain ⟨-, -, hstep⟩ := bind_eq_ok.mp hstep
      cases hstep
      rcases SeqNumMap.mem_set.mp he with rfl | ⟨he, -⟩
      · exact .inr rfl
      · exact .inl ⟨hcleared he, fun _ => nofun⟩
    · cases hstep
      exact .inl ⟨hcleared he, fun _ => nofun⟩
  | checkInst PC =>
    rw [step] at hstep
    cases hcheck : s.checkInst p PC with
    | error e =>
      rw [hcheck] at hstep
      cases hstep
    | ok dep =>
      rw [hcheck] at hstep
      cases hstep
      exact .inl ⟨he, fun _ => nofun⟩
  | issued PC seq is_store =>
    rw [step, issued] at hstep
    cases is_store with
    | false =>
      cases hstep
      exact .inl ⟨he, fun _ => nofun⟩
    | true =>
      obtain ⟨-, -, hstep⟩ := bind_eq_ok.mp hstep
      have hlist : t.storeList = s.storeList.erase seq := by
        dsimp only at hstep
        split at hstep
        · obtain ⟨-, -, hstep⟩ := bind_eq_ok.mp hstep
          split at hstep <;> cases hstep <;> rfl
        · cases hstep
          rfl
      rw [hlist] at he
      obtain ⟨he, hne⟩ := SeqNumMap.mem_erase.mp he
      exact .inl ⟨he, fun _ hc => hne (Action.issued.inj hc).2.1.symm⟩
  | violation store_PC load_PC =>
    obtain ⟨-, -, hlist⟩ := violation_same hstep
    rw [hlist] at he
    exact .inl ⟨he, fun _ => nofun⟩
  | squash n =>
    obtain ⟨valid, list, rfl, hlist, -⟩ := squashLoop_spec (orFail_eq_ok.mp hstep)
    exact .inl ⟨((hlist e).mp he).1, fun _ => nofun⟩
  | clear =>
    cases hstep
    exact absurd he SeqNumMap.not_mem_empty

end

/-! ## Outstanding stores -/

section

variable {p : Params} {s t : StoreSet} {a : Action}

/-- **What a set remembers** is a store that is in the list. -/
def Outstanding (s : StoreSet) : Prop :=
  ∀ idx, s.validLFST idx = true → ∃ ssid, (s.LFST idx, ssid) ∈ s.storeList

/-- What an issue can handle: a set that remembers the store is the one that its program counter
has. -/
def Mapped (p : Params) (s : StoreSet) : Action → Prop
  | .issued PC seq true => ∀ idx < p.LFSTSize, s.validLFST idx = true → s.LFST idx = seq →
      s.validSSIT (calcIndex p PC) = true ∧ s.SSIT (calcIndex p PC) = idx
  | _ => True

/-- What a squash can handle: a set that remembers a store to be squashed has one in the list. -/
def Covered (p : Params) (s : StoreSet) : Action → Prop
  | .squash n => ∀ idx < p.LFSTSize, s.validLFST idx = true → n < s.LFST idx →
      ∃ e ∈ s.storeList.entries, n < e.1 ∧ e.2 = idx
  | _ => True

instance (p : Params) (s : StoreSet) : DecidablePred (Mapped p s)
  | .issued _ _ true => Nat.decidableBallLT _ _
  | .issued _ _ false | .insertLoad | .insertStore _ _ | .checkInst _ | .violation _ _ | .squash _
  | .clear => inferInstanceAs (Decidable True)

instance (p : Params) (s : StoreSet) : DecidablePred (Covered p s)
  | .squash _ => Nat.decidableBallLT _ _
  | .issued _ _ _ | .insertLoad | .insertStore _ _ | .checkInst _ | .violation _ _ | .clear =>
      inferInstanceAs (Decidable True)

theorem Outstanding.clear (s : StoreSet) : s.clear.Outstanding := fun _ h => nomatch h

theorem Outstanding.checkClear (h : s.Outstanding) : (s.checkClear p).Outstanding := by
  rw [StoreSet.checkClear]
  split
  · exact .clear _
  · exact h

/-- **One step** keeps what the sets remember in the list. -/
theorem Outstanding.step (h : s.Outstanding) (hs : s.Sized p) (hmapped : s.Mapped p a)
    (hcovered : s.Covered p a) (hstep : step p s a = .ok t) : t.Outstanding := by
  cases a with
  | insertLoad =>
    cases hstep
    exact h.checkClear
  | insertStore PC seq =>
    have hclear : (s.checkClear p).Outstanding := h.checkClear
    rw [StoreSet.step, insertStore_spec hs.checkClear.ssit] at hstep
    cases hstep
    dsimp only
    split
    · intro idx hidx
      dsimp only at hidx ⊢
      by_cases heq : idx = (s.checkClear p).SSIT (calcIndex p PC)
      · rw [heq, Function.update_self]
        exact ⟨_, SeqNumMap.mem_set.mpr (.inl rfl)⟩
      · rw [Function.update_of_ne heq] at hidx ⊢
        obtain ⟨ssid, hmem⟩ := hclear idx hidx
        by_cases hseq : (s.checkClear p).LFST idx = seq
        · rw [hseq]
          exact ⟨_, SeqNumMap.mem_set.mpr (.inl rfl)⟩
        · exact ⟨ssid, SeqNumMap.mem_set.mpr (.inr ⟨hmem, hseq⟩)⟩
    · exact hclear
  | checkInst PC =>
    rw [StoreSet.step, checkInst_spec hs.ssit] at hstep
    cases hstep
    exact h
  | issued PC seq is_store =>
    cases is_store with
    | false =>
      cases hstep
      exact h
    | true =>
      obtain ⟨valid, hissued, hvalid⟩ := issued_spec hs.ssit PC seq
      cases hissued.symm.trans hstep
      intro idx hidx
      obtain ⟨hold, hkept⟩ := (hvalid idx).mp hidx
      obtain ⟨ssid, hmem⟩ := h idx hold
      refine ⟨ssid, SeqNumMap.mem_erase.mpr ⟨hmem, fun hseq => hkept ?_⟩⟩
      obtain ⟨hssit, hset⟩ := hmapped idx (hs.lfst idx hold) hold hseq
      exact ⟨hssit, hset, hseq⟩
  | violation store_PC load_PC =>
    obtain ⟨hlfst, hvalid, hlist⟩ := violation_same hstep
    rw [Outstanding, hlfst, hvalid, hlist]
    exact h
  | squash n =>
    obtain ⟨valid, list, rfl, hlist, hvalid⟩ := squashLoop_spec (orFail_eq_ok.mp hstep)
    intro idx hidx
    obtain ⟨hold, hkept⟩ := (hvalid idx).mp hidx
    obtain ⟨ssid, hmem⟩ := h idx hold
    refine ⟨ssid, (hlist _).mpr ⟨hmem, Nat.not_lt.mp fun hlt => hkept ?_⟩⟩
    exact ⟨hlt, hcovered idx (hs.lfst idx hold) hold hlt⟩
  | clear =>
    cases hstep
    exact .clear s

/-- Whether a store has issued and was not inserted again. -/
def gone (seq : InstSeqNum) (before : Bool) : Action → Bool
  | .issued _ seq' true => before || seq' == seq
  | .insertStore _ seq' => before && seq' != seq
  | _ => before

/-- A store that has issued is not in the list. -/
theorem gone_unlisted {seq : InstSeqNum} {before : Bool}
    (h : before = true → ∀ ssid, (seq, ssid) ∉ s.storeList) (hstep : step p s a = .ok t)
    (hgone : gone seq before a = true) : ∀ ssid, (seq, ssid) ∉ t.storeList := by
  intro ssid hmem
  rcases step_listed hstep hmem with ⟨hold, hissued⟩ | hinserted
  · have hbefore : before = true → False := fun hb => h hb ssid hold
    cases a with
    | issued PC seq' is_store =>
      cases is_store with
      | false => exact hbefore hgone
      | true =>
        rw [gone, Bool.or_eq_true] at hgone
        rcases hgone with hgone | hgone
        · exact hbefore hgone
        · exact hissued PC (by rw [beq_iff_eq.mp hgone])
    | insertStore PC seq' =>
      rw [gone, Bool.and_eq_true] at hgone
      exact hbefore hgone.1
    | insertLoad | checkInst | violation | squash | clear => exact hbefore hgone
  · cases a with
    | insertStore PC seq' =>
      rw [gone, Bool.and_eq_true, bne_iff_ne] at hgone
      exact hgone.2 (Option.some.inj hinserted)
    | insertLoad | checkInst | issued | violation | squash | clear => cases hinserted

/-- **Every store that a set remembers is outstanding**, in every state of a run whose issues and
squashes the predictor can handle; so no instruction is made to wait for a store that has issued. -/
theorem lfst_outstanding (p : Params) {as : List Action} {s : StoreSet}
    (ha : Admitted (fun s a => s.Mapped p a ∧ s.Covered p a) (step p) init as)
    (h : run (step p) init as = .ok s) :
    (∀ idx, s.validLFST idx = true → ∃ ssid, (s.LFST idx, ssid) ∈ s.storeList) ∧
      ∀ PC dep, s.checkInst p PC = .ok dep → dep ≠ 0 →
        (∃ ssid, (dep, ssid) ∈ s.storeList) ∧ as.foldl (gone dep) false = false := by
  obtain ⟨hsized, hout⟩ := run_invariant
    (P := fun s => s.Sized p ∧ s.Outstanding)
    (fun _ _ _ hs ha hstep => ⟨step_sized hs.1 hstep, hs.2.step hs.1 ha.1 ha.2 hstep⟩)
    ⟨sized_init p, Outstanding.clear init⟩ ha h
  refine ⟨hout, fun PC dep hdep hne => ?_⟩
  have hlisted : ∃ ssid, (dep, ssid) ∈ s.storeList := by
    rw [checkInst_spec hsized.ssit, Except.ok.injEq] at hdep
    split at hdep
    · next hboth =>
      rw [Bool.and_eq_true] at hboth
      rw [← hdep]
      exact hout _ hboth.2
    · exact absurd hdep.symm hne
  refine ⟨hlisted, Bool.eq_false_iff.mpr fun hgone => ?_⟩
  have hunlisted := run_simulation
    (R := fun s before => before = true → ∀ ssid, (dep, ssid) ∉ s.storeList)
    (fun _ _ a _ hR hstep => gone_unlisted (a := a) hR hstep) (s := init) (t := false) nofun h
  obtain ⟨ssid, hmem⟩ := hlisted
  exact hunlisted hgone ssid hmem

end

/-- Tables of `16` sets and `16` program counters, for examples. -/
def small : Params := ⟨100, 16, 16, by decide, by decide⟩

/-- Two stores of different sets: the one that its set remembers issues, and the other is squashed;
then another store of the first set comes in. -/
def issuedAndSquashed : List Action :=
  [.violation 16 8, .violation 20 4, .insertStore 16 10, .insertStore 20 12, .issued 16 10 true,
    .squash 11, .insertStore 16 14, .checkInst 8]

/-- A load waits for the last store of its set only. -/
theorem lfst_outstanding_predicted :
    ∃ s, run (step small) init issuedAndSquashed = .ok s ∧
      (s.checkInst small 8 = .ok 14 ∧ s.checkInst small 4 = .ok 0) ∧
      (∀ idx, s.validLFST idx = true → ∃ ssid, (s.LFST idx, ssid) ∈ s.storeList) ∧
        ∀ PC dep, s.checkInst small PC = .ok dep → dep ≠ 0 →
          (∃ ssid, (dep, ssid) ∈ s.storeList) ∧
            issuedAndSquashed.foldl (gone dep) false = false := by
  obtain ⟨s, hs, hpredicted⟩ : ∃ s, run (step small) init issuedAndSquashed = .ok s ∧
      (s.checkInst small 8 = .ok 14 ∧ s.checkInst small 4 = .ok 0) := by
    decide +kernel
  exact ⟨s, hs, hpredicted, lfst_outstanding small (by decide +kernel) hs⟩

/-- The store at `16` is moved from set `8` to set `4` before it issues, and set `8` goes on
remembering it. -/
theorem moved_store_remembered :
    ∃ s, run (step small) init [.violation 16 8, .violation 20 4, .insertStore 16 10,
        .violation 16 4, .issued 16 10 true] = .ok s ∧
      (s.validLFST 8 = true ∧ s.LFST 8 = 10 ∧ s.storeList.entries = [] ∧
        s.checkInst small 8 = .ok 10) := by
  decide +kernel

/-! ## Squashing -/

section

variable {p : Params} {s t : StoreSet} {a : Action}

/-- **The books are kept**: the list and what the sets remember agree. -/
structure Booked (p : Params) (s : StoreSet) : Prop where
  sized : s.Sized p
  fetched : s.Fetched
  named : ∀ idx, s.validLFST idx = true → (s.LFST idx, idx) ∈ s.storeList

theorem Booked.clear (p : Params) (s : StoreSet) : s.clear.Booked p where
  sized := .clear p s
  fetched _ he := absurd he SeqNumMap.not_mem_empty
  named _ h := nomatch h

theorem Booked.checkClear (h : s.Booked p) : (s.checkClear p).Booked p := by
  rw [StoreSet.checkClear]
  split
  · exact .clear p _
  · exact ⟨⟨h.sized.ssit, h.sized.lfst⟩, h.fetched, h.named⟩

/-- A store with a number above those in the list is booked under the set it gets. -/
theorem Booked.record (h : s.Booked p) {ssid : ℕ} {seq : InstSeqNum} (hssid : ssid < p.LFSTSize)
    (hnewer : ∀ e ∈ s.storeList, e.1 < seq) :
    Booked p { s with
      LFST := Function.update s.LFST ssid seq
      validLFST := Function.update s.validLFST ssid true
      storeList := s.storeList.set seq ssid } := by
  refine ⟨⟨h.sized.ssit, fun idx hidx => ?_⟩, fun e he => ?_, fun idx hidx => ?_⟩
  · by_cases heq : idx = ssid
    · exact heq ▸ hssid
    · dsimp only at hidx
      rw [Function.update_of_ne heq] at hidx
      exact h.sized.lfst idx hidx
  · dsimp only
    rcases SeqNumMap.mem_set.mp he with rfl | ⟨he, -⟩
    · exact (Function.update_self ssid seq s.LFST).ge
    · by_cases heq : e.2 = ssid
      · rw [heq, Function.update_self]
        exact (hnewer e he).le
      · rw [Function.update_of_ne heq]
        exact h.fetched e he
  · dsimp only at hidx ⊢
    by_cases heq : idx = ssid
    · rw [heq, Function.update_self]
      exact SeqNumMap.mem_set.mpr (.inl rfl)
    · rw [Function.update_of_ne heq] at hidx ⊢
      have hmem := h.named idx hidx
      exact SeqNumMap.mem_set.mpr (.inr ⟨hmem, (hnewer _ hmem).ne⟩)

/-- **A squash** ends; it keeps the entries up to its number, and the sets that remember one. -/
theorem Booked.squash (h : s.Booked p) (n : InstSeqNum) :
    ∃ rounds s', squashLoop rounds s n = some s' ∧ s'.Booked p ∧
      (∀ e, e ∈ s'.storeList ↔ e ∈ s.storeList ∧ e.1 ≤ n) ∧
      ∀ idx, s'.validLFST idx = true → s'.LFST idx ≤ n := by
  obtain ⟨s', hloop⟩ := squashLoop_ends h.fetched n (Nat.lt_succ_self _)
  refine ⟨_, s', hloop, ?_⟩
  obtain ⟨valid, list, rfl, hlist, hvalid⟩ := squashLoop_spec hloop
  have hold : ∀ idx, valid idx = true → s.validLFST idx = true ∧ s.LFST idx ≤ n := by
    intro idx hidx
    obtain ⟨hold, hkept⟩ := (hvalid idx).mp hidx
    exact ⟨hold, Nat.not_lt.mp fun hlt => hkept ⟨hlt, _, h.named idx hold, hlt, rfl⟩⟩
  refine ⟨⟨⟨h.sized.ssit, fun idx hidx => h.sized.lfst idx (hold idx hidx).1⟩,
    fun e he => h.fetched e ((hlist e).mp he).1, fun idx hidx => ?_⟩, hlist,
    fun idx hidx => (hold idx hidx).2⟩
  obtain ⟨hidx, hle⟩ := hold idx hidx
  exact (hlist _).mpr ⟨h.named idx hidx, hle⟩

/-- What an insertion can handle: a number above those in the list. -/
def Newer (s : StoreSet) (a : Action) : Prop :=
  ∀ seq, a.inserted = some seq → ∀ e ∈ s.storeList, e.1 < seq

/-- **One step** returns and keeps the books. -/
theorem Booked.step (h : s.Booked p) (hmapped : s.Mapped p a) (hnewer : s.Newer a) :
    ∃ t, step p s a = .ok t ∧ t.Booked p := by
  obtain ⟨t, hstep⟩ := step_returns (a := a) h.sized fun n _ => by
    obtain ⟨rounds, s', hloop, -⟩ := h.squash n
    exact ⟨s', squash_of_loop hloop⟩
  refine ⟨t, hstep, ?_⟩
  cases a with
  | insertLoad =>
    cases hstep
    exact h.checkClear
  | insertStore PC seq =>
    have hclear : (s.checkClear p).Booked p := h.checkClear
    have hlist : ∀ e ∈ (s.checkClear p).storeList, e ∈ s.storeList := by
      intro e he
      rw [StoreSet.checkClear] at he
      split at he
      · exact absurd he SeqNumMap.not_mem_empty
      · exact he
    rw [StoreSet.step, insertStore_spec hclear.sized.ssit] at hstep
    cases hstep
    dsimp only
    split
    · next hvalid =>
      exact hclear.record (hclear.sized.ssit _ hvalid) fun e he => hnewer seq rfl e (hlist e he)
    · exact hclear
  | checkInst PC =>
    rw [StoreSet.step, checkInst_spec h.sized.ssit] at hstep
    cases hstep
    exact h
  | issued PC seq is_store =>
    cases is_store with
    | false =>
      cases hstep
      exact h
    | true =>
      obtain ⟨valid, hissued, hvalid⟩ := issued_spec h.sized.ssit PC seq
      cases hissued.symm.trans hstep
      refine ⟨step_sized h.sized hstep,
        fun e he => h.fetched e (SeqNumMap.mem_erase.mp he).1, fun idx hidx => ?_⟩
      obtain ⟨hold, hkept⟩ := (hvalid idx).mp hidx
      refine SeqNumMap.mem_erase.mpr ⟨h.named idx hold, fun hseq => hkept ?_⟩
      obtain ⟨hssit, hset⟩ := hmapped idx (h.sized.lfst idx hold) hold hseq
      exact ⟨hssit, hset, hseq⟩
  | violation store_PC load_PC =>
    have hsized := step_sized h.sized hstep
    obtain ⟨hlfst, hvalid, hlist⟩ := violation_same hstep
    refine ⟨hsized, ?_, ?_⟩
    · rw [Fetched, hlfst, hlist]
      exact h.fetched
    · rw [hlfst, hvalid, hlist]
      exact h.named
  | squash n =>
    obtain ⟨rounds, s', hloop, hbooked, -⟩ := h.squash n
    cases (squash_of_loop hloop).symm.trans hstep
    exact hbooked
  | clear =>
    cases hstep
    exact .clear p s

/-- Numbers that increase are above those in the list. -/
theorem admitted_newer {as : List Action}
    (hincreasing : (as.filterMap Action.inserted).Pairwise (· < ·))
    (hlist : ∀ seq ∈ as.filterMap Action.inserted, ∀ e ∈ s.storeList, e.1 < seq) :
    Admitted Newer (StoreSet.step p) s as := by
  induction as generalizing s with
  | nil => trivial
  | cons a as ih =>
    have hrest : ∀ seq ∈ as.filterMap Action.inserted,
        seq ∈ (a :: as).filterMap Action.inserted := by
      intro seq hseq
      obtain ⟨b, hb, hinserted⟩ := List.mem_filterMap.mp hseq
      exact List.mem_filterMap.mpr ⟨b, List.mem_cons_of_mem a hb, hinserted⟩
    refine ⟨fun seq hseq => hlist seq (List.mem_filterMap.mpr ⟨a, List.mem_cons_self, hseq⟩),
      fun t hstep => ih ?_ fun seq hseq e he => ?_⟩
    · exact hincreasing.sublist ((List.sublist_cons_self a as).filterMap _)
    · rcases step_listed hstep he with ⟨hold, -⟩ | hinserted
      · exact hlist seq (hrest seq hseq) e hold
      · rw [List.filterMap_cons_some hinserted] at hincreasing
        exact (List.pairwise_cons.mp hincreasing).1 seq hseq

/-- **A squash ends and is complete** in every state of a run that inserts increasing numbers, and
in which a store issues only while the set that remembers it is the one of its program counter. -/
theorem squash_complete (p : Params) {as : List Action}
    (hincreasing : (as.filterMap Action.inserted).Pairwise (· < ·))
    (ha : Admitted (Mapped p) (step p) init as) :
    ∃ s, run (step p) init as = .ok s ∧ ∀ n, ∃ s', s.squash n = .ok s' ∧
      (∃ rounds, squashLoop rounds s n = some s') ∧
      (∀ e, e ∈ s'.storeList ↔ e ∈ s.storeList ∧ e.1 ≤ n) ∧
      ∀ idx, s'.validLFST idx = true → s'.LFST idx ≤ n := by
  have hnewer : Admitted Newer (step p) init as :=
    admitted_newer hincreasing fun _ _ _ he => absurd he SeqNumMap.not_mem_empty
  obtain ⟨s, hrun, hbooked⟩ := run_total (P := Booked p)
    (fun _ _ hs ha => hs.step ha.1 ha.2) (Booked.clear p init) (ha.and hnewer)
  refine ⟨s, hrun, fun n => ?_⟩
  obtain ⟨rounds, s', hloop, -, hlist, hlfst⟩ := hbooked.squash n
  exact ⟨s', squash_of_loop hloop, ⟨rounds, hloop⟩, hlist, hlfst⟩

end

theorem squash_complete_issued :
    ∃ s, run (step small) init issuedAndSquashed = .ok s ∧ ∀ n, ∃ s', s.squash n = .ok s' ∧
      (∃ rounds, squashLoop rounds s n = some s') ∧
      (∀ e, e ∈ s'.storeList ↔ e ∈ s.storeList ∧ e.1 ≤ n) ∧
      ∀ idx, s'.validLFST idx = true → s'.LFST idx ≤ n :=
  squash_complete small (by decide) (by decide +kernel)

/-- A store issues after it was moved from set `8` to set `4`; a squash down to `5` leaves set `8`
with the number `10`. -/
theorem squashed_store_remembered :
    ∃ s, run (step small) init [.violation 16 8, .violation 20 4, .insertStore 16 10,
        .violation 16 4, .issued 16 10 true] = .ok s ∧
      ∃ s', s.squash 5 = .ok s' ∧ (s'.validLFST 8 = true ∧ 5 < s'.LFST 8) := by
  decide +kernel

end StoreSet

end Gem5
