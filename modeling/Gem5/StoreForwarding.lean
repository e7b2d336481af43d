/-
# Store-to-load forwarding

The outcome of the store-queue search of `LSQUnit::read` is decided by one store:
the youngest older store still in the write buffer that is considered for
forwarding and shares a byte with the load (`Decides`).  If that store may serve
the load (`Serves`), the load gets its bytes; otherwise the load is held; without
such a store the load goes to memory.

Byte ranges are sets of natural numbers here, and the comparisons of the source,
which are made on wrapping 64-bit ends, are related to them in `coverage_eq_ok`.
-/
import Gem5.Runs
import Gem5.LsqAccess

open Runs

namespace Gem5.Lsq

/-! ## Byte ranges -/

/-- The bytes of an access. -/
def byteRange (a : Addr) (size : BitVec 32) : Set ℕ := Set.Ico a.toNat (a.toNat + size.toNat)

/-- An access that ends below the top of the address space, with a size that is an
`int`. -/
structure Fits (a : Addr) (size : BitVec 32) : Prop where
  end_lt : a.toNat + size.toNat < 2 ^ 64
  size_lt : size.toNat < 2 ^ 31

theorem toNat_add_size {a : Addr} {size : BitVec 32} (h : Fits a size) :
    (a + size.setWidth 64).toNat = a.toNat + size.toNat := by
  have := h.end_lt
  rw [BitVec.toNat_add, BitVec.toNat_setWidth, Nat.mod_eq_of_lt (by omega : size.toNat < 2 ^ 64),
    Nat.mod_eq_of_lt h.end_lt]

theorem toNat_add_signExtend {a : Addr} {size : BitVec 32} (h : Fits a size) :
    (a + size.signExtend 64).toNat = a.toNat + size.toNat := by
  have hmsb : size.msb = false := by
    rw [BitVec.msb_eq_false_iff_two_mul_lt]
    have := h.size_lt
    omega
  rw [BitVec.signExtend_eq_setWidth_of_msb_false hmsb, toNat_add_size h]

/-- Two non-empty ranges meet when each begins before the other ends. -/
theorem byteRange_inter_nonempty {a b : Addr} {n m : BitVec 32} (hn : 0 < n.toNat)
    (hm : 0 < m.toNat) : (byteRange a n ∩ byteRange b m).Nonempty ↔
      a.toNat < b.toNat + m.toNat ∧ b.toNat < a.toNat + n.toNat := by
  constructor
  · rintro ⟨c, ⟨h1, h2⟩, h3, h4⟩
    exact ⟨by omega, by omega⟩
  · rintro ⟨h1, h2⟩
    exact ⟨max a.toNat b.toNat, ⟨by omega, by omega⟩, by omega, by omega⟩

/-- A non-empty range lies in another one when its ends do. -/
theorem byteRange_subset {a b : Addr} {n m : BitVec 32} (hn : 0 < n.toNat) :
    byteRange a n ⊆ byteRange b m ↔
      b.toNat ≤ a.toNat ∧ a.toNat + n.toNat ≤ b.toNat + m.toNat := by
  rw [byteRange, byteRange, Set.Ico_subset_Ico_iff (by omega)]

/-! ## The deciding store -/

/-- The instruction of the store at index `j`. -/
def LSQUnit.storeInst (u : LSQUnit) (j : ℕ) : DynInst :=
  u.insts ((u.storeQueue.get j).inst.getD 0)

/-- The main request of an entry. -/
def SQEntry.mainRequest (x : SQEntry) : Option Request := x.req.bind (·.mainRequest)

/-- The store at `j` carries data that a load could need. -/
def Considered (u : LSQUnit) (j : ℕ) : Prop :=
  (u.storeQueue.get j).size ≠ 0 ∧ (u.storeInst j).strictlyOrdered = false ∧
    ∀ m, (u.storeQueue.get j).mainRequest = some m → m.isCacheMaintenance = false

/-- The bytes of the store at `j`. -/
def storeRange (u : LSQUnit) (j : ℕ) : Set ℕ :=
  byteRange (u.storeInst j).effAddr (u.storeQueue.get j).size

/-- The store at `j` shares a byte with the load. -/
def Overlaps (u : LSQUnit) (main : Request) (j : ℕ) : Prop :=
  (byteRange main.vaddr main.size ∩ storeRange u j).Nonempty

/-- The store at `j` may serve the load: it covers all its bytes, is not atomic and
not masked, and the load is not a load-linked. -/
def Serves (u : LSQUnit) (main : Request) (j : ℕ) : Prop :=
  byteRange main.vaddr main.size ⊆ storeRange u j ∧ (u.storeInst j).isAtomic = false ∧
    main.isLLSC = false ∧ ∀ m, (u.storeQueue.get j).mainRequest = some m → m.isMasked = false

/-- `j` is the youngest store in `[lo, hi)` that is considered and overlaps the load. -/
structure Decides (u : LSQUnit) (main : Request) (lo hi j : ℕ) : Prop where
  ge : lo ≤ j
  lt : j < hi
  considered : Considered u j
  overlaps : Overlaps u main j
  youngest : ∀ k, j < k → k < hi → Considered u k → ¬ Overlaps u main k

/-- The bytes of the store at `j` at the offset of the load; zeros for an all-zero
store. -/
def servedBytes (u : LSQUnit) (main : Request) (j : ℕ) : List Byte :=
  (List.range main.size.toNat).map fun k =>
    if (u.storeQueue.get j).isAllZeros then 0
    else (u.storeQueue.get j).data (main.vaddr.toNat - (u.storeInst j).effAddr.toNat + k)

/-! ## The coverage logic -/

section Coverage

variable {main : Request} {u : LSQUnit} {j : ℕ} (hload : Fits main.vaddr main.size)
  (hpos : 0 < main.size.toNat) (hstore : Fits (u.storeInst j).effAddr (u.storeQueue.get j).size)
  (hsize : (u.storeQueue.get j).size ≠ 0)
include hload hpos hstore hsize

/-- The comparisons of the source on 64-bit ends, as comparisons of byte addresses. -/
theorem coverage_eq_ok {c : AddrRangeCoverage}
    (h : coverage main (u.storeQueue.get j) (u.storeInst j) = .ok c) :
    (c = .FullAddrRangeCoverage ↔ Serves u main j) ∧
      (c = .NoAddrRangeCoverage ↔ ¬ Overlaps u main j) := by
  have hne : 0 < (u.storeQueue.get j).size.toNat := by
    rcases Nat.eq_zero_or_pos (u.storeQueue.get j).size.toNat with h0 | h0
    · exact absurd (BitVec.eq_of_toNat_eq h0) hsize
    · exact h0
  have hover := byteRange_inter_nonempty (a := main.vaddr) (b := (u.storeInst j).effAddr) hpos hne
  have hcov := byteRange_subset (a := main.vaddr) (b := (u.storeInst j).effAddr)
    (m := (u.storeQueue.get j).size) hpos
  unfold coverage at h
  simp only [BitVec.le_def, BitVec.lt_def, toNat_add_size hload, toNat_add_signExtend hstore] at h
  split at h
  · rename_i hfull
    obtain ⟨hatomic, hlow, hup, hllsc⟩ := hfull
    have hoverlap : Overlaps u main j := hover.mpr ⟨by omega, by omega⟩
    split at h
    · cases h
    · rename_i m hm
      have hserves : Serves u main j ↔ m.isMasked = false := by
        constructor
        · intro hs
          exact hs.2.2.2 m hm
        · intro hmask
          refine ⟨hcov.mpr ⟨hlow, hup⟩, by simpa using hatomic, by simpa using hllsc, ?_⟩
          intro m' hm'
          rw [SQEntry.mainRequest, hm, Option.some.injEq] at hm'
          exact hm' ▸ hmask
      rw [hserves]
      cases hmask : m.isMasked <;> rw [hmask] at h <;> cases h <;> simp [hoverlap]
  · rename_i hfull
    -- the three disjuncts of the partial case all say that the ranges meet
    have hserves : ¬ Serves u main j := by
      rintro ⟨hsub, hatomic, hllsc, -⟩
      obtain ⟨hlow, hup⟩ := hcov.mp hsub
      exact hfull ⟨by simp [hatomic], hlow, hup, by simp [hllsc]⟩
    split at h
    · rename_i hpart
      have hoverlap : Overlaps u main j := by
        apply hover.mpr
        rcases hpart with ⟨-, h1 | h1 | h1⟩ | ⟨-, h1 | h1, h2 | h2⟩ | ⟨-, h1 | h1, h2 | h2⟩ <;> omega
      cases h
      simp [hserves, hoverlap]
    · rename_i hpart
      have hoverlap : ¬ Overlaps u main j := by
        intro ho
        obtain ⟨h1, h2⟩ := hover.mp ho
        apply hpart
        cases hllsc : main.isLLSC with
        | false => exact .inl ⟨by simp, .inr (.inr ⟨h1, h2⟩)⟩
        | true => exact .inr (.inl ⟨rfl, .inr h2, .inr h1⟩)
      cases h
      simp [hserves, hoverlap]

end Coverage

/-- The coverage logic fails only on a store without its main request. -/
theorem coverage_returns (main : Request) {x : SQEntry} (i : DynInst)
    (h : x.mainRequest ≠ none) : ∃ c, coverage main x i = .ok c := by
  unfold coverage
  dsimp only
  split
  · split
    · rename_i hnone
      exact absurd hnone h
    · exact ⟨_, rfl⟩
  · split
    · exact ⟨_, rfl⟩
    · exact ⟨_, rfl⟩

variable {j lo load_idx : ℕ} {u : LSQUnit} {main : Request} {q : InstSeqNum} {req : LSQRequest}

theorem considered_eq_ok {b : Bool} (h : (u.storeQueue.get j).considered (u.storeInst j) = .ok b) :
    b = true ↔ Considered u j := by
  unfold SQEntry.considered at h
  unfold Considered SQEntry.mainRequest
  split at h
  · rename_i hskip
    cases h
    simp only [Bool.or_eq_true, decide_eq_true_eq] at hskip
    rcases hskip with h1 | h1 <;> simp [h1]
  · rename_i hskip
    simp only [Bool.or_eq_true, decide_eq_true_eq, not_or, Bool.not_eq_true] at hskip
    split at h
    · cases h
    · rename_i r hr
      cases h
      rw [hr]
      have hsize : (u.storeQueue.get j).size ≠ 0#32 := hskip.1
      cases hm : r.mainRequest <;> simp [hskip.2, hsize, hm]

/-! ## The search -/

/-- What the search reports about the stores in `[lo, hi)`. -/
def SearchSpec (u : LSQUnit) (main : Request) (lo hi : ℕ) : SearchResult → Prop
  | .full j => Decides u main lo hi j ∧ Serves u main j
  | .part j => Decides u main lo hi j ∧ ¬ Serves u main j
  | .none => ∀ j, lo ≤ j → j < hi → Considered u j → ¬ Overlaps u main j

/-- The search goes on below a store that does not matter to the load. -/
theorem SearchSpec.skip {r : SearchResult} (h : SearchSpec u main lo j r)
    (hj : Considered u j → ¬ Overlaps u main j) :
    SearchSpec u main lo (j + 1) r := by
  have hext : ∀ i, Decides u main lo j i → Decides u main lo (j + 1) i := by
    intro i hi
    refine ⟨hi.ge, hi.lt.trans (Nat.lt_succ_self j), hi.considered, hi.overlaps, ?_⟩
    intro k hk hkj
    rcases Nat.lt_succ_iff_lt_or_eq.mp hkj with hlt | rfl
    · exact hi.youngest k hk hlt
    · exact hj
  cases r with
  | full i => exact ⟨hext i h.1, h.2⟩
  | part i => exact ⟨hext i h.1, h.2⟩
  | none =>
    intro i hlo hi
    rcases Nat.lt_succ_iff_lt_or_eq.mp hi with hlt | rfl
    · exact h i hlo hlt
    · exact hj

/-- The store the search looks at first decides, when it overlaps the load. -/
theorem decides_last (hlo : lo ≤ j) (hc : Considered u j) (ho : Overlaps u main j) :
    Decides u main lo (j + 1) j :=
  ⟨hlo, Nat.lt_succ_self j, hc, ho, fun _ hk hkj => absurd hkj (Nat.not_lt.mpr hk)⟩

section Search

variable {u : LSQUnit} {main : Request} (hload : Fits main.vaddr main.size)
  (hpos : 0 < main.size.toNat) {q : InstSeqNum} {lo : ℕ}
include hload hpos

/-- **The search finds the deciding store.** -/
theorem search_spec {k : ℕ} {r : SearchResult}
    (hstores : ∀ j, lo ≤ j → j < lo + k → Considered u j →
      Fits (u.storeInst j).effAddr (u.storeQueue.get j).size)
    (h : u.search q main k (lo + k) = .ok r) : SearchSpec u main lo (lo + k) r := by
  induction k with
  | zero =>
    cases h
    intro j h1 h2
    omega
  | succ k ih =>
    have hrest := ih fun j h1 h2 => hstores j h1 (by omega)
    unfold LSQUnit.search at h
    obtain ⟨it, hit, h⟩ := bind_eq_ok.mp h
    -- the iterator moves to the index just below
    obtain rfl : it = lo + k := by
      rw [orFail_eq_ok] at hit
      unfold CircularQueue.prev at hit
      split at hit
      · have := Option.some.inj hit
        omega
      · cases hit
    obtain ⟨_, _, h⟩ := bind_eq_ok.mp h
    obtain ⟨st, hst, h⟩ := bind_eq_ok.mp h
    have hinst : u.insts st = u.storeInst (lo + k) := by
      rw [LSQUnit.storeInst, orFail_eq_ok.mp hst]
      rfl
    obtain ⟨_, _, h⟩ := bind_eq_ok.mp h
    obtain ⟨b, hb, h⟩ := bind_eq_ok.mp h
    rw [hinst] at hb h
    have hcons := considered_eq_ok hb
    cases b with
    | false =>
      exact (hrest h).skip fun hc => absurd (hcons.mpr hc) (by simp)
    | true =>
      have hc := hcons.mp rfl
      obtain ⟨_, _, h⟩ := bind_eq_ok.mp h
      obtain ⟨c, hcov, h⟩ := bind_eq_ok.mp h
      obtain ⟨hfull, hno⟩ := coverage_eq_ok hload hpos
        (hstores (lo + k) (by omega) (by omega) hc) hc.1 hcov
      cases c with
      | FullAddrRangeCoverage =>
        cases h
        refine ⟨decides_last (Nat.le_add_right lo k) hc ?_, hfull.mp rfl⟩
        by_contra ho
        cases hno.mpr ho
      | PartialAddrRangeCoverage =>
        cases h
        refine ⟨decides_last (Nat.le_add_right lo k) hc ?_, fun hs => ?_⟩
        · by_contra ho
          cases hno.mpr ho
        · cases hfull.mpr hs
      | NoAddrRangeCoverage => exact (hrest h).skip fun _ => hno.mp rfl

end Search

/-- The search returns when the stores it may look at pass the assertions. -/
theorem search_returns (main : Request) {k : ℕ} (hhead : u.storeQueue.head ≤ lo)
    (hstores : ∀ j, lo ≤ j → j < lo + k → (u.storeQueue.get j).valid = true ∧
      (∃ st, (u.storeQueue.get j).inst = some st ∧ st < q) ∧
      ((u.storeQueue.get j).size ≠ 0 → (u.storeQueue.get j).mainRequest ≠ none) ∧
      (Considered u j → (u.storeInst j).effAddrValid = true)) :
    ∃ r, u.search q main k (lo + k) = .ok r := by
  induction k with
  | zero => exact ⟨.none, rfl⟩
  | succ k ih =>
    obtain ⟨r, hr⟩ := ih fun j h1 h2 => hstores j h1 (by omega)
    obtain ⟨hvalid, ⟨st, hst, hlt⟩, hreq, haddr⟩ :=
      hstores (lo + k) (Nat.le_add_right lo k) (by omega)
    have hprev : u.storeQueue.prev (lo + (k + 1)) = some (lo + k) := by
      unfold CircularQueue.prev
      rw [if_pos (by omega)]
      rfl
    have hinst : u.insts st = u.storeInst (lo + k) := by
      rw [LSQUnit.storeInst, hst]
      rfl
    have hcons : ∃ b, (u.storeQueue.get (lo + k)).considered (u.storeInst (lo + k)) = .ok b := by
      unfold SQEntry.considered
      split
      · exact ⟨_, rfl⟩
      · rename_i hskip
        simp only [Bool.or_eq_true, decide_eq_true_eq, not_or] at hskip
        split
        · rename_i hnone
          exact absurd (by rw [SQEntry.mainRequest, hnone]; rfl) (hreq hskip.1)
        · exact ⟨_, rfl⟩
    obtain ⟨b, hb⟩ := hcons
    unfold LSQUnit.search
    apply bind_returns (orFail_eq_ok.mpr hprev)
    apply bind_returns (require_ok hvalid)
    apply bind_returns (orFail_eq_ok.mpr hst)
    apply bind_returns (require_ok (decide_eq_true hlt))
    refine bind_returns (by rw [hinst]; exact hb) ?_
    -- what is left of the round once the store has passed its assertions
    cases b with
    | false => exact ⟨r, hr⟩
    | true =>
      have hconsidered := (considered_eq_ok hb).mp rfl
      obtain ⟨c, hc⟩ :=
        coverage_returns main (u.storeInst (lo + k)) (hreq hconsidered.1)
      rw [hinst, if_pos rfl, haddr hconsidered, hc]
      cases c with
      | FullAddrRangeCoverage => exact ⟨.full (lo + k), rfl⟩
      | PartialAddrRangeCoverage => exact ⟨.part (lo + k), rfl⟩
      | NoAddrRangeCoverage => exact ⟨r, hr⟩

/-! ## The outcome of a load -/

/-- At most one store decides. -/
theorem Decides.unique {hi i : ℕ} (hi' : Decides u main lo hi i) (hj : Decides u main lo hi j) :
    i = j := by
  rcases Nat.lt_trichotomy i j with h | h | h
  · exact absurd hj.overlaps (hi'.youngest j h hj.lt hj.considered)
  · exact h
  · exact absurd hi'.overlaps (hj.youngest i h hi'.lt hi'.considered)

/-- `memcpy` and `memset` copy the bytes of the store at the offset of the load. -/
theorem forwardData_eq (hpos : 0 < main.size.toNat)
    (hstore : Fits (u.storeInst j).effAddr (u.storeQueue.get j).size)
    (hsub : byteRange main.vaddr main.size ⊆ storeRange u j) :
    (u.storeQueue.get j).forwardData (u.storeInst j) main = servedBytes u main j := by
  obtain ⟨hlow, hup⟩ := (byteRange_subset hpos).mp hsub
  have hdiff : (main.vaddr - (u.storeInst j).effAddr).toNat =
      main.vaddr.toNat - (u.storeInst j).effAddr.toNat :=
    BitVec.toNat_sub_of_le (BitVec.le_def.mpr hlow)
  have hsize := hstore.size_lt
  -- the offset is an `int`, because it lies inside the store
  have hshift : ((main.vaddr - (u.storeInst j).effAddr).setWidth 32).toInt.toNat =
      main.vaddr.toNat - (u.storeInst j).effAddr.toNat := by
    have hwidth : ((main.vaddr - (u.storeInst j).effAddr).setWidth 32).toNat =
        main.vaddr.toNat - (u.storeInst j).effAddr.toNat := by
      rw [BitVec.toNat_setWidth, hdiff, Nat.mod_eq_of_lt (by omega)]
    rw [BitVec.toInt_eq_toNat_of_lt (by omega), hwidth, Int.toNat_natCast]
  unfold SQEntry.forwardData servedBytes
  dsimp only
  rw [hshift]

/-- Does `read` get as far as the search of the store queue?  Strictly ordered loads
away from the head of the queue, local accesses and nested transaction commands
leave it earlier. -/
def LSQUnit.reachesSearch (u : LSQUnit) (main : Request) (q : InstSeqNum) (load_idx : ℕ) : Bool :=
  !(main.isStrictlyOrdered && (load_idx ≠ u.loadQueue.head || !(u.insts q).atCommit)) &&
    !main.isLocalAccess && !((main.isHTMStart || main.isHTMCommit) && main.noAccess)

/-- The outcome `out` with the new state `u'` is the one the deciding store asks for. -/
structure Decided (u : LSQUnit) (main : Request) (q : InstSeqNum) (out : ReadOutcome)
    (u' : LSQUnit) : Prop where
  served : ∀ j, Decides u main u.storeWBIt (u.insts q).sqIt j → Serves u main j →
    out = .forwarded (servedBytes u main j) ∧
      (u'.insts q).memData = some (servedBytes u main j)
  held : ∀ j, Decides u main u.storeWBIt (u.insts q).sqIt j → ¬ Serves u main j →
    out = .held ∧ (u'.insts q).issued = false ∧ u'.stalled = true
  memory : (∀ j, ¬ Decides u main u.storeWBIt (u.insts q).sqIt j) → out = .memory

/-- The assertions `read` makes for a load that reaches the search. -/
structure SearchSafe (u : LSQUnit) (req : LSQRequest) (main : Request) (q : InstSeqNum) :
    Prop where
  notExecuted : (u.insts q).executed = false
  wb_le : u.storeWBIt ≤ (u.insts q).sqIt
  head_le : u.storeQueue.head ≤ u.storeWBIt
  stores : ∀ j, u.storeWBIt ≤ j → j < (u.insts q).sqIt → (u.storeQueue.get j).valid = true ∧
    (∃ st, (u.storeQueue.get j).inst = some st ∧ st < q) ∧
    ((u.storeQueue.get j).size ≠ 0 → (u.storeQueue.get j).mainRequest ≠ none) ∧
    (Considered u j → (u.storeInst j).effAddrValid = true)
  notCompleted : ∀ j, Decides u main u.storeWBIt (u.insts q).sqIt j →
    (u.storeQueue.get j).completed = false
  sameTransaction : ∀ j, Decides u main u.storeWBIt (u.insts q).sqIt j →
    (u.insts q).inHtmTransactionalState = true →
      (u.storeInst j).inHtmTransactionalState = true ∧
        (u.insts q).htmUid = (u.storeInst j).htmUid
  notCommand : main.isHTMCmd = false
  outstanding : req.isAnyOutstandingRequest = true → 0 < req.numOutstandingPackets
  stallingLoad : u.stalled = true → (u.loadQueue.get u.stallingLoadIdx).inst ≠ none

/-- Recording a request touches neither the store queue nor the instructions. -/
theorem decides_setRequest {hi : ℕ} {r : Option LSQRequest} :
    Decides (u.setRequest load_idx r) main lo hi j ↔ Decides u main lo hi j := by
  constructor
  · rintro ⟨h1, h2, h3, h4, h5⟩
    exact ⟨h1, h2, h3, h4, h5⟩
  · rintro ⟨h1, h2, h3, h4, h5⟩
    exact ⟨h1, h2, h3, h4, h5⟩

/-- `read` of a load that reaches the search records the request, checks that the
load has not executed, and searches. -/
theorem read_eq_search (hq : (u.loadQueue.get load_idx).inst = some q)
    (hmain : req.mainRequest = some main) (hreach : u.reachesSearch main q load_idx = true) :
    u.read req load_idx = (do
      require .alreadyExecuted (!(u.insts q).executed)
      (u.setRequest load_idx (some req)).searchAndAccess req main q load_idx) := by
  simp only [LSQUnit.reachesSearch, Bool.and_eq_true, Bool.not_eq_true'] at hreach
  obtain ⟨⟨h1, h2⟩, h3⟩ := hreach
  unfold LSQUnit.read
  rw [hq, hmain]
  show (do
      require Fail.alreadyExecuted (!(u.insts q).executed)
      if main.isStrictlyOrdered && (load_idx ≠ u.loadQueue.head || !(u.insts q).atCommit) then _
      else if main.isLocalAccess then _
      else if (main.isHTMStart || main.isHTMCommit) && main.noAccess then _
      else _) = _
  rw [h1, h2, h3]
  rfl

theorem forward_eq_ok {r : ReadOutcome × LSQUnit} (h : u.forward req main q j = .ok r) :
    r = (.forwarded ((u.storeQueue.get j).forwardData (u.storeInst j) main),
      u.setInst q { u.insts q with
        memData := some ((u.storeQueue.get j).forwardData (u.storeInst j) main) }) := by
  unfold LSQUnit.forward at h
  obtain ⟨st, hst, h⟩ := bind_eq_ok.mp h
  have hinst : u.insts st = u.storeInst j := by
    rw [LSQUnit.storeInst, orFail_eq_ok.mp hst]
    rfl
  rw [hinst] at h
  obtain ⟨_, _, h⟩ := bind_eq_ok.mp h
  obtain ⟨_, _, h⟩ := bind_eq_ok.mp h
  obtain ⟨_, _, h⟩ := bind_eq_ok.mp h
  exact (Except.ok.inj h).symm

theorem hold_eq_ok {u' : LSQUnit} {out : ReadOutcome} (h : u.hold q load_idx j = .ok (out, u')) :
    out = .held ∧ (u'.insts q).issued = false ∧ u'.stalled = true := by
  unfold LSQUnit.hold at h
  obtain ⟨_, _, h⟩ := bind_eq_ok.mp h
  obtain ⟨st, _, h⟩ := bind_eq_ok.mp h
  obtain ⟨first, hfirst, h⟩ := bind_eq_ok.mp h
  obtain ⟨rfl, rfl⟩ := Prod.mk.inj (Except.ok.inj h)
  refine ⟨rfl, ?_, ?_⟩
  · show ((LSQUnit.setInst _ q _).insts q).issued = false
    rw [LSQUnit.insts_setInst]
  · show (if first then _ else u : LSQUnit).stalled = true
    cases first with
    | true => rfl
    | false =>
      -- a load that is not recorded leaves an older stall in place
      unfold LSQUnit.stallsFirst at hfirst
      split at hfirst
      · assumption
      · cases hfirst

/-- The outcome of the search and what follows it. -/
theorem searchAndAccess_decided {u' : LSQUnit} {out : ReadOutcome}
    (hprefetch : (u.insts q).isDataPrefetch = false) (hload : Fits main.vaddr main.size)
    (hpos : 0 < main.size.toNat)
    (hstores : ∀ j, u.storeWBIt ≤ j → j < (u.insts q).sqIt → Considered u j →
      Fits (u.storeInst j).effAddr (u.storeQueue.get j).size)
    (h : u.searchAndAccess req main q load_idx = .ok (out, u')) : Decided u main q out u' := by
  unfold LSQUnit.searchAndAccess at h
  obtain ⟨_, hwb, h⟩ := bind_eq_ok.mp h
  have hle : u.storeWBIt ≤ (u.insts q).sqIt := by simpa [require_eq_ok] using hwb
  rw [hprefetch, if_neg (by simp)] at h
  obtain ⟨r, hr, h⟩ := bind_eq_ok.mp h
  have hspan : u.storeWBIt + ((u.insts q).sqIt - u.storeWBIt) = (u.insts q).sqIt :=
    Nat.add_sub_cancel' hle
  have hspec : SearchSpec u main u.storeWBIt (u.insts q).sqIt r := by
    rw [← hspan] at hr ⊢
    rw [Nat.add_sub_cancel_left] at hr
    apply search_spec hload hpos (q := q) _ hr
    intro j h1 h2
    exact hstores j h1 (by omega)
  cases r with
  | full i =>
    obtain ⟨hdec, hserves⟩ := hspec
    have hdata := forwardData_eq hpos (hstores i hdec.ge hdec.lt hdec.considered) hserves.1
    have hok := forward_eq_ok h
    rw [hdata] at hok
    obtain ⟨rfl, rfl⟩ := Prod.mk.inj hok
    constructor
    · intro j hj _
      obtain rfl := hj.unique hdec
      exact ⟨rfl, by rw [LSQUnit.insts_setInst]⟩
    · intro j hj hns
      exact absurd (hj.unique hdec ▸ hserves) hns
    · intro hnone
      exact absurd hdec (hnone i)
  | part i =>
    obtain ⟨hdec, hns⟩ := hspec
    constructor
    · intro j hj hs
      exact absurd (hj.unique hdec ▸ hs) hns
    · intro j _ _
      exact hold_eq_ok h
    · intro hnone
      exact absurd hdec (hnone i)
  | none =>
    obtain ⟨rfl, rfl⟩ := Prod.mk.inj (Except.ok.inj h)
    constructor
    · intro j hj _
      exact absurd hj.overlaps (hspec j hj.ge hj.lt hj.considered)
    · intro j hj _
      exact absurd hj.overlaps (hspec j hj.ge hj.lt hj.considered)
    · intro _
      rfl

/-! ## The access returns -/

/-- The deciding store passes the assertions of the forwarding branch. -/
theorem forward_returns (hsafe : SearchSafe u req main q)
    (hdec : Decides u main u.storeWBIt (u.insts q).sqIt j) :
    ∃ r, u.forward req main q j = .ok r := by
  obtain ⟨-, ⟨st, hst, -⟩, -, -⟩ := hsafe.stores j hdec.ge hdec.lt
  have hinst : u.insts st = u.storeInst j := by
    rw [LSQUnit.storeInst, hst]
    rfl
  have hhtm : (!(u.insts q).inHtmTransactionalState ||
      (!(u.storeQueue.get j).completed && (u.insts st).inHtmTransactionalState &&
        (u.insts q).htmUid == (u.insts st).htmUid)) = true := by
    cases htm : (u.insts q).inHtmTransactionalState with
    | false => rfl
    | true =>
      obtain ⟨h1, h2⟩ := hsafe.sameTransaction j hdec htm
      rw [hinst, hsafe.notCompleted j hdec, h1, h2]
      simp
  have hpackets : (!req.isAnyOutstandingRequest || decide (0 < req.numOutstandingPackets)) =
      true := by
    cases hout : req.isAnyOutstandingRequest with
    | false => rfl
    | true => simp [hsafe.outstanding hout]
  unfold LSQUnit.forward
  apply bind_returns (orFail_eq_ok.mpr hst)
  apply bind_returns (require_ok (by rw [hsafe.notCommand]; rfl))
  apply bind_returns (require_ok hhtm)
  apply bind_returns (require_ok hpackets)
  exact ⟨_, rfl⟩

/-- The deciding store passes the assertions of the holding branch. -/
theorem hold_returns (load_idx : ℕ) (hsafe : SearchSafe u req main q)
    (hdec : Decides u main u.storeWBIt (u.insts q).sqIt j) :
    ∃ r, u.hold q load_idx j = .ok r := by
  obtain ⟨-, ⟨st, hst, -⟩, -, -⟩ := hsafe.stores j hdec.ge hdec.lt
  have hfirst : ∃ b, u.stallsFirst q = .ok b := by
    unfold LSQUnit.stallsFirst
    cases hs : u.stalled with
    | false => exact ⟨true, rfl⟩
    | true =>
      obtain ⟨old, hold⟩ := Option.ne_none_iff_exists'.mp (hsafe.stallingLoad hs)
      exact bind_returns (orFail_eq_ok.mpr hold) ⟨_, rfl⟩
  obtain ⟨b, hb⟩ := hfirst
  unfold LSQUnit.hold
  apply bind_returns (require_ok (by rw [hsafe.notCompleted j hdec]; rfl))
  apply bind_returns (orFail_eq_ok.mpr hst)
  exact bind_returns hb ⟨_, rfl⟩

/-- The search and what follows it return when the assertions hold. -/
theorem searchAndAccess_returns (load_idx : ℕ) (hprefetch : (u.insts q).isDataPrefetch = false)
    (hload : Fits main.vaddr main.size) (hpos : 0 < main.size.toNat)
    (hstores : ∀ j, u.storeWBIt ≤ j → j < (u.insts q).sqIt → Considered u j →
      Fits (u.storeInst j).effAddr (u.storeQueue.get j).size) (hsafe : SearchSafe u req main q) :
    ∃ r, u.searchAndAccess req main q load_idx = .ok r := by
  have hspan : u.storeWBIt + ((u.insts q).sqIt - u.storeWBIt) = (u.insts q).sqIt :=
    Nat.add_sub_cancel' hsafe.wb_le
  obtain ⟨r, hr⟩ := search_returns main
    (k := (u.insts q).sqIt - u.storeWBIt) hsafe.head_le
    (fun j h1 h2 => hsafe.stores j h1 (by omega))
  have hspec := search_spec hload hpos (fun j h1 h2 => hstores j h1 (by omega)) hr
  rw [hspan] at hr hspec
  have hrest : ∃ r', (match r with
      | .full store_it => u.forward req main q store_it
      | .part store_it => u.hold q load_idx store_it
      | .none => .ok (.memory,
          u.setInst q { u.insts q with memData := some ((u.insts q).memData.getD []) })) =
        Except.ok r' := by
    cases r with
    | full i => exact forward_returns hsafe hspec.1
    | part i => exact hold_returns load_idx hsafe hspec.1
    | none => exact ⟨_, rfl⟩
  unfold LSQUnit.searchAndAccess
  apply bind_returns (require_ok (decide_eq_true hsafe.wb_le))
  rw [hprefetch, if_neg (by simp)]
  exact bind_returns hr hrest

/-! ## Main result -/

/-- **Store-to-load forwarding is decided by the youngest overlapping store.**  For
a load that is no data prefetch and reaches the search, with accesses that end
below the top of the address space: whatever the queues hold, the outcome is the
one the deciding store asks for; and `read` does return when its assertions hold. -/
theorem read_decided {u : LSQUnit} {req : LSQRequest} {main : Request} {q : InstSeqNum}
    {load_idx : ℕ} (hq : (u.loadQueue.get load_idx).inst = some q)
    (hmain : req.mainRequest = some main) (hreach : u.reachesSearch main q load_idx = true)
    (hprefetch : (u.insts q).isDataPrefetch = false)
    (hload : Fits main.vaddr main.size) (hpos : 0 < main.size.toNat)
    (hstores : ∀ j, u.storeWBIt ≤ j → j < (u.insts q).sqIt → Considered u j →
      Fits (u.storeInst j).effAddr (u.storeQueue.get j).size) :
    (∀ out u', u.read req load_idx = .ok (out, u') → Decided u main q out u') ∧
      (SearchSafe u req main q → ∃ out u', u.read req load_idx = .ok (out, u')) := by
  rw [read_eq_search hq hmain hreach]
  constructor
  · intro out u' h
    obtain ⟨_, _, h⟩ := bind_eq_ok.mp h
    have hdec := searchAndAccess_decided (u := u.setRequest load_idx (some req)) hprefetch hload
      hpos hstores h
    constructor
    · intro j hj
      exact hdec.served j (decides_setRequest.mpr hj)
    · intro j hj
      exact hdec.held j (decides_setRequest.mpr hj)
    · intro hnone
      exact hdec.memory fun j hj => hnone j (decides_setRequest.mp hj)
  · intro hsafe
    have hsafe' : SearchSafe (u.setRequest load_idx (some req)) req main q := by
      refine ⟨hsafe.notExecuted, hsafe.wb_le, hsafe.head_le, hsafe.stores, ?_, ?_,
        hsafe.notCommand, hsafe.outstanding, ?_⟩
      · exact fun j hj => hsafe.notCompleted j (decides_setRequest.mp hj)
      · exact fun j hj => hsafe.sameTransaction j (decides_setRequest.mp hj)
      · intro hs
        rcases CircularQueue.get_set_cases u.loadQueue load_idx u.stallingLoadIdx
          { u.loadQueue.get load_idx with req := some req } with h1 | ⟨_, h1⟩
        · show ((u.loadQueue.set load_idx _).get u.stallingLoadIdx).inst ≠ none
          rw [h1]
          exact hsafe.stallingLoad hs
        · show ((u.loadQueue.set load_idx _).get u.stallingLoadIdx).inst ≠ none
          rw [h1, hq]
          exact Option.some_ne_none q
    obtain ⟨⟨out, u'⟩, hr⟩ := searchAndAccess_returns (u := u.setRequest load_idx (some req))
      load_idx hprefetch hload hpos hstores hsafe'
    refine ⟨out, u', bind_eq_ok.mpr ⟨(), require_eq_ok.mpr ?_, hr⟩⟩
    rw [hsafe.notExecuted]
    rfl

/-! ## A store and a load behind it -/

/-- The store of the bytes `1, …, 8` at `0x1000`. -/
def eightBytes : Access :=
  let main : Request := { vaddr := 0x1000, size := 8 }
  let req : LSQRequest := { mainRequest := some main, request := main, size := 8 }
  { push := some { req := req, size := 8, data := fun k => BitVec.ofNat 8 (k + 1) } }

/-- The store is executed, and a load is inserted after it. -/
def storeThenLoad (prefetch : Bool) : Except Fail LSQUnit := do
  let u := LSQUnit.new 4 4 0 false
  let u := u.setInst 2 { isLoad := true, isDataPrefetch := prefetch }
  let u ← u.insertStore 1
  let r ← u.executeStore 1 eightBytes
  r.2.insertLoad 2

/-- The unit `storeThenLoad` ends in. -/
def servedPair (prefetch : Bool) : LSQUnit :=
  match storeThenLoad prefetch with
  | .ok u => u
  | .error _ => LSQUnit.new 4 4 0 false

/-- The load of the upper four bytes of the store. -/
def upperHalf : Request := { vaddr := 0x1004, size := 4 }

def upperHalfReq : LSQRequest :=
  { mainRequest := some upperHalf, request := upperHalf, size := 4 }

theorem servedPair_decides (prefetch : Bool) : Decides (servedPair prefetch) upperHalf 1 2 1 := by
  refine ⟨le_refl 1, by decide, ?_, ?_, fun k h1 h2 => by omega⟩
  · cases prefetch <;> exact ⟨by decide, rfl, fun m hm => by cases hm; rfl⟩
  · cases prefetch <;> exact (byteRange_inter_nonempty (by decide) (by decide)).mpr (by decide)

theorem servedPair_serves (prefetch : Bool) : Serves (servedPair prefetch) upperHalf 1 := by
  refine ⟨?_, ?_, rfl, ?_⟩
  · cases prefetch <;> exact (byteRange_subset (by decide)).mpr (by decide)
  · cases prefetch <;> rfl
  · cases prefetch <;> exact fun m hm => by cases hm; rfl

/-- The load behind the store gets the upper four of its bytes. -/
theorem read_decided_servedPair :
    ∃ u', (servedPair false).read upperHalfReq 1 = .ok (.forwarded [5, 6, 7, 8], u') := by
  have hstores : ∀ j, (servedPair false).storeWBIt ≤ j →
      j < ((servedPair false).insts 2).sqIt → j = 1 := by
    intro j h1 h2
    have h1' : 1 ≤ j := h1
    have h2' : j < 2 := h2
    omega
  obtain ⟨hout, hreturns⟩ := @read_decided (servedPair false) upperHalfReq upperHalf 2 1
    rfl rfl rfl rfl ⟨by decide, by decide⟩ (by decide) (fun j h1 h2 _ => by
      obtain rfl := hstores j h1 h2
      exact ⟨by decide, by decide⟩)
  have hsafe : SearchSafe (servedPair false) upperHalfReq upperHalf 2 := by
    refine ⟨rfl, by decide, by decide, ?_, ?_, ?_, rfl, nofun, nofun⟩
    · intro j h1 h2
      obtain rfl := hstores j h1 h2
      exact ⟨rfl, ⟨1, rfl, by decide⟩, fun _ => nofun, fun _ => rfl⟩
    · intro j hj
      obtain rfl := hstores j hj.ge hj.lt
      rfl
    · exact fun _ _ => nofun
  obtain ⟨out, u', hr⟩ := hreturns hsafe
  obtain ⟨rfl, -⟩ := (hout out u' hr).served 1 (servedPair_decides false) (servedPair_serves false)
  exact ⟨u', hr⟩

/-- A data prefetch goes to memory past a store that covers it. -/
theorem prefetch_passes_store :
    ∃ u', (servedPair true).read upperHalfReq 1 = .ok (.memory, u') ∧
      ¬ Decided (servedPair true) upperHalf 2 .memory u' := by
  refine ⟨_, rfl, fun h => ?_⟩
  obtain ⟨hout, -⟩ := h.served 1 (servedPair_decides true) (servedPair_serves true)
  cases hout

end Gem5.Lsq
