/-
# When the subset test is exact

`isSubset` (`base/addr_range.hh`) compares a plain range with any other.  For an interleaved one it
tests the two ends and compares the size with the granularity, the distance between two addresses in
which no mask has a bit.  A range that goes over the boundary of two such blocks can still be a
subset, when the carry leaves every selector bit as it was; one that meets a third block cannot,
because the lowest interleaving bit changes alone on the way.  The masks are combined in an `int`,
so a mask with no bit below 32 is not seen.
-/
import Gem5.RangeUnion

namespace Gem5.Base

open Runs

/-! ## Blocks -/

/-- The position of the lowest interleaving bit. -/
def AddrRange.lowestBit (r : AddrRange) : ℕ := ctz64 (r.masks.foldl (· ||| ·) 0)

/-- Some mask has a bit that an `int` keeps. -/
def SeenByInt (r : AddrRange) : Prop := ∃ m ∈ r.masks, ∃ k < 32, m.getLsbD k = true

/-- The plain range `t` begins in one block of `r` and ends in the next one, and is longer than a
block. -/
def Straddles (t r : AddrRange) : Prop :=
  2 ^ r.lowestBit < t.end_.toNat - t.start.toNat ∧
    (t.end_ - 1).toNat / 2 ^ r.lowestBit = t.start.toNat / 2 ^ r.lowestBit + 1

/-- **What the test relies on.**  For an interleaved range: the selector is defined where it is
computed, and once both ends are found in the range, some mask is seen and they are not in two
neighbouring blocks of a longer range.  For a plain one: its match value is zero. -/
def Decides (t r : AddrRange) : Prop :=
  if r.masks = [] then r.intlvMatch = 0 ∨ ¬(r.start ≤ t.start ∧ t.end_ ≤ r.end_)
  else
    r.start ≤ t.start → t.start < r.end_ → r.masks.length ≤ 32 ∧
      (r.contains t.start = .ok true → r.contains (t.end_ - 1) = .ok true →
        SeenByInt r ∧ ¬Straddles t r)

variable {t r : AddrRange}

/-! ## The granularity -/

theorem getLsbD_foldl_or (masks : List Addr) (v : Addr) (k : ℕ) :
    (masks.foldl (· ||| ·) v).getLsbD k = (v.getLsbD k || masks.any fun m => m.getLsbD k) := by
  induction masks generalizing v with
  | nil => simp
  | cons m masks ih =>
    rw [List.foldl_cons, ih, BitVec.getLsbD_or, List.any_cons, Bool.or_assoc]

theorem ctz64_eq {v : Addr} {k : ℕ} (hk : v.getLsbD k = true)
    (hlow : ∀ j < k, v.getLsbD j = false) : ctz64 v = k := by
  have hle := ctz64_le_of_getLsbD hk
  have hne : v ≠ 0 := by
    rintro rfl
    rw [show (0 : Addr).getLsbD k = false from BitVec.getLsbD_zero] at hk
    cases hk
  rcases hle.lt_or_eq with hlt | heq
  · have hbit := getLsbD_ctz64 hne
    rw [hlow _ hlt] at hbit
    cases hbit
  · exact heq

/-- The lowest interleaving bit is a bit of a mask, and no mask has one below it. -/
theorem lowestBit_spec (h : SeenByInt r) :
    r.lowestBit < 32 ∧ (∃ m ∈ r.masks, m.getLsbD r.lowestBit = true) ∧
      ∀ m ∈ r.masks, ∀ j < r.lowestBit, m.getLsbD j = false := by
  obtain ⟨m, hm, k, hk, hbit⟩ := h
  have hget : ∀ j, (r.masks.foldl (· ||| ·) 0).getLsbD j = r.masks.any fun m => m.getLsbD j := by
    intro j
    rw [getLsbD_foldl_or, show (0 : Addr).getLsbD j = false from BitVec.getLsbD_zero, Bool.false_or]
  have hset : (r.masks.foldl (· ||| ·) 0).getLsbD k = true := by
    rw [hget]
    exact List.any_eq_true.mpr ⟨m, hm, hbit⟩
  have hle : r.lowestBit ≤ k := ctz64_le_of_getLsbD hset
  have hne : r.masks.foldl (· ||| ·) 0 ≠ 0 := by
    intro hzero
    rw [hzero, show (0 : Addr).getLsbD k = false from BitVec.getLsbD_zero] at hset
    cases hset
  refine ⟨by omega, ?_, fun m' hm' j hj => ?_⟩
  · have hlowest : (r.masks.foldl (· ||| ·) 0).getLsbD r.lowestBit = true := getLsbD_ctz64 hne
    rw [hget] at hlowest
    exact List.any_eq_true.mp hlowest
  · by_contra hbit'
    have hj' : (r.masks.foldl (· ||| ·) 0).getLsbD j = true := by
      rw [hget]
      exact List.any_eq_true.mpr ⟨m', hm', Bool.not_eq_false _ ▸ hbit'⟩
    have hle' : r.lowestBit ≤ j := ctz64_le_of_getLsbD hj'
    omega

/-- **The granularity** of a range with a mask that is seen. -/
theorem granularity_eq (hm : r.masks ≠ []) (h : SeenByInt r) :
    r.granularity = .ok (1#64 <<< r.lowestBit) := by
  obtain ⟨hlt, ⟨m, hmem, hbit⟩, hlow⟩ := lowestBit_spec h
  have hget : ∀ j < 32, ((r.masks.foldl (fun c m => ((c.signExtend 64) ||| m).setWidth 32)
      (0 : BitVec 32)).signExtend 64).getLsbD j = r.masks.any fun m => m.getLsbD j := by
    intro j hj
    have hj64 : j < 64 := by omega
    rw [BitVec.getLsbD_signExtend, if_pos hj, getLsbD_combined hj]
    simp [hj64]
  have hctz : ctz64 ((r.masks.foldl (fun c m => ((c.signExtend 64) ||| m).setWidth 32)
      (0 : BitVec 32)).signExtend 64) = r.lowestBit := by
    refine ctz64_eq ?_ fun j hj => ?_
    · rw [hget _ hlt]
      exact List.any_eq_true.mpr ⟨m, hmem, hbit⟩
    · rw [hget j (by omega), List.any_eq_false]
      intro m' hm'
      rw [hlow m' hm' j hj]
      exact Bool.false_ne_true
  unfold AddrRange.granularity
  rw [if_pos (show r.interleaved = true from decide_eq_true hm)]
  dsimp only
  rw [hctz]
  exact bind_eq_ok.mpr ⟨(), require_ok (decide_eq_true (by omega)), rfl⟩

/-- Without such a mask the shift is not defined. -/
theorem granularity_error (hm : r.masks ≠ []) (h : ¬SeenByInt r) :
    r.granularity = .error .undefinedShift := by
  have hzero : r.masks.foldl (fun c m => ((c.signExtend 64) ||| m).setWidth 32) (0 : BitVec 32) =
      0 := by
    apply BitVec.eq_of_getLsbD_eq
    intro k hk
    rw [getLsbD_combined hk]
    have hnone : (r.masks.any fun m => m.getLsbD k) = false := by
      rw [List.any_eq_false]
      exact fun m hmem hbit => h ⟨m, hmem, k, hk, hbit⟩
    rw [hnone, Bool.or_false]
  have hctz : ctz64 ((0 : BitVec 32).signExtend 64) = 64 := by decide
  unfold AddrRange.granularity
  rw [if_pos (show r.interleaved = true from decide_eq_true hm)]
  dsimp only
  rw [hzero, hctz]
  rfl

/-! ## Neighbouring blocks -/

theorem selLoop_congr {a b : Addr} {masks : List Addr} {i : ℕ} {sel : BitVec 32}
    (h : ∀ m ∈ masks, a &&& m = b &&& m) : selLoop a i masks sel = selLoop b i masks sel := by
  induction masks generalizing i sel with
  | nil => rfl
  | cons m masks ih =>
    unfold selLoop
    rw [h m List.mem_cons_self]
    split
    · exact ih fun m' hm' => h m' (List.mem_cons_of_mem m hm')
    · rfl

/-- The masks do not see what is inside a block. -/
theorem and_eq_of_block {a b m : Addr} {k : ℕ} (hblock : a.toNat / 2 ^ k = b.toNat / 2 ^ k)
    (hm : ∀ j < k, m.getLsbD j = false) : a &&& m = b &&& m := by
  have hshift : a >>> k = b >>> k := by
    apply BitVec.eq_of_toNat_eq
    rw [BitVec.toNat_ushiftRight, BitVec.toNat_ushiftRight, Nat.shiftRight_eq_div_pow,
      Nat.shiftRight_eq_div_pow, hblock]
  apply BitVec.eq_of_getLsbD_eq
  intro j _
  rw [BitVec.getLsbD_and, BitVec.getLsbD_and]
  by_cases hj : j < k
  · rw [hm j hj, Bool.and_false, Bool.and_false]
  · have hbit := congrArg (fun x : Addr => x.getLsbD (j - k)) hshift
    simp only [BitVec.getLsbD_ushiftRight] at hbit
    rw [Nat.add_sub_cancel' (not_lt.mp hj)] at hbit
    rw [hbit]

/-- A range contains the addresses of a block, as far as its interval goes, or none of them. -/
theorem contains_of_block (hseen : SeenByInt r) {a b : Addr}
    (hblock : a.toNat / 2 ^ r.lowestBit = b.toNat / 2 ^ r.lowestBit) (hb : r.contains b = .ok true)
    (hs : r.start ≤ a) (he : a < r.end_) : r.contains a = .ok true := by
  obtain ⟨-, -, hsel⟩ := contains_iff.mp hb
  have hsame : r.sel a = r.sel b :=
    selLoop_congr fun m hm => and_eq_of_block hblock ((lowestBit_spec hseen).2.2 m hm)
  exact contains_iff.mpr ⟨hs, he, hsame.trans hsel⟩

theorem testBit_block (x k : ℕ) : x.testBit k = decide (x / 2 ^ k % 2 = 1) :=
  Nat.testBit_eq_decide_div_mod_eq

/-- **From an even block to the next one** only the lowest interleaving bit changes, so the range
does not contain both. -/
theorem not_contains_next (hseen : SeenByInt r) {x y : Addr}
    (hy : y.toNat = x.toNat + 2 ^ r.lowestBit) (heven : x.toNat / 2 ^ r.lowestBit % 2 = 0)
    (hcx : r.contains x = .ok true) : r.contains y ≠ .ok true := by
  intro hcy
  obtain ⟨hlt, ⟨m, hm, hbit⟩, -⟩ := lowestBit_spec hseen
  have hl : r.lowestBit < 64 := by omega
  have hclear : x.getLsbD r.lowestBit = false := by
    rw [BitVec.getLsbD, testBit_block, decide_eq_false (by omega)]
  have hsum : y = x ||| 1#64 <<< r.lowestBit := by
    have hdisjoint : x &&& 1#64 <<< r.lowestBit = 0#64 := by
      by_contra hne
      rw [BitVec.and_comm] at hne
      rw [(and_bit_ne_zero hl).mp hne] at hclear
      cases hclear
    rw [← BitVec.add_eq_or_of_and_eq_zero _ _ hdisjoint]
    apply BitVec.eq_of_toNat_eq
    have hpow : 2 ^ r.lowestBit < 2 ^ 64 := Nat.pow_lt_pow_right (by decide) hl
    have hone : (1#64 <<< r.lowestBit).toNat = 2 ^ r.lowestBit := by
      rw [BitVec.toNat_shiftLeft, Nat.shiftLeft_eq]
      simp only [BitVec.toNat_ofNat]
      omega
    have := y.isLt
    rw [BitVec.toNat_add, hone, hy, Nat.mod_eq_of_lt (by omega)]
  obtain ⟨i, hi⟩ := List.mem_iff_getElem?.mp hm
  have hpx := (selects_of_sel (contains_iff.mp hcx).2.2).2 i m hi
  have hpy := (selects_of_sel (contains_iff.mp hcy).2.2).2 i m hi
  have hflip : parity (y &&& m) = (true ^^ parity (x &&& m)) := by
    rw [parity_split (w := x &&& m) hl ?_ fun j _ hj => ?_, BitVec.getLsbD_and, hsum,
      getLsbD_setBit hl, decide_eq_true rfl, Bool.or_true, hbit, Bool.and_true]
    · rw [BitVec.getLsbD_and, hclear, Bool.false_and]
    · rw [BitVec.getLsbD_and, BitVec.getLsbD_and, hsum, getLsbD_setBit hl, decide_eq_false hj,
        Bool.or_false]
  rw [hpx, hpy] at hflip
  cases h : r.intlvMatch.getLsbD i <;> rw [h] at hflip <;> cases hflip

/-- A plain range that is a subset does not meet a third block. -/
theorem last_block_le (hseen : SeenByInt r) (hne : t.start < t.end_)
    (hsub : ∀ a, t.start ≤ a → a < t.end_ → r.contains a = .ok true) :
    (t.end_ - 1).toNat / 2 ^ r.lowestBit ≤ t.start.toNat / 2 ^ r.lowestBit + 1 := by
  by_contra hfar
  have hpos : 0 < 2 ^ r.lowestBit := Nat.two_pow_pos _
  have hlast : (t.end_ - 1).toNat = t.end_.toNat - 1 := by bv_omega
  have hend := t.end_.isLt
  have hreach : 2 ^ r.lowestBit * (t.start.toNat / 2 ^ r.lowestBit + 2) ≤ t.end_.toNat - 1 := by
    rw [← hlast]
    exact (Nat.mul_le_mul_left _ (by omega)).trans (Nat.mul_div_le _ _)
  have hstart := Nat.div_add_mod t.start.toNat (2 ^ r.lowestBit)
  have hmod := Nat.mod_lt t.start.toNat hpos
  rw [Nat.mul_add] at hreach
  -- the first even block of the first two
  obtain ⟨n, hlow, heven, hhigh⟩ : ∃ n, t.start.toNat ≤ n ∧ n / 2 ^ r.lowestBit % 2 = 0 ∧
      n + 2 ^ r.lowestBit < t.end_.toNat := by
    rcases Nat.mod_two_eq_zero_or_one (t.start.toNat / 2 ^ r.lowestBit) with heven | hodd
    · exact ⟨t.start.toNat, le_rfl, heven, by omega⟩
    · refine ⟨2 ^ r.lowestBit * (t.start.toNat / 2 ^ r.lowestBit + 1), ?_, ?_, ?_⟩
      · rw [Nat.mul_add]
        omega
      · rw [Nat.mul_div_cancel_left _ hpos]
        omega
      · rw [Nat.mul_add]
        omega
  have hn : (BitVec.ofNat 64 n).toNat = n := by
    rw [BitVec.toNat_ofNat]
    exact Nat.mod_eq_of_lt (by omega)
  have hn' : (BitVec.ofNat 64 (n + 2 ^ r.lowestBit)).toNat = n + 2 ^ r.lowestBit := by
    rw [BitVec.toNat_ofNat]
    exact Nat.mod_eq_of_lt (by omega)
  refine not_contains_next hseen (x := BitVec.ofNat 64 n) (by rw [hn, hn'])
    (by rw [hn]; exact heven) (hsub _ ?_ ?_)
    (hsub (BitVec.ofNat 64 (n + 2 ^ r.lowestBit)) ?_ ?_)
  · rw [BitVec.le_def, hn]
    exact hlow
  · rw [BitVec.lt_def, hn]
    omega
  · rw [BitVec.le_def, hn']
    omega
  · rw [BitVec.lt_def, hn']
    exact hhigh

/-- What lies in the blocks of two addresses of the range is in it. -/
theorem contains_of_two_blocks (hseen : SeenByInt r) {x y a : Addr} (hx : r.contains x = .ok true)
    (hy : r.contains y = .ok true) (hxa : x ≤ a) (hay : a ≤ y)
    (hnear : y.toNat / 2 ^ r.lowestBit ≤ x.toNat / 2 ^ r.lowestBit + 1) :
    r.contains a = .ok true := by
  have h1 : x.toNat / 2 ^ r.lowestBit ≤ a.toNat / 2 ^ r.lowestBit := Nat.div_le_div_right hxa
  have h2 : a.toNat / 2 ^ r.lowestBit ≤ y.toNat / 2 ^ r.lowestBit := Nat.div_le_div_right hay
  have hs : r.start ≤ a := BitVec.le_trans (contains_iff.mp hx).1 hxa
  have he : a < r.end_ := by
    have := (contains_iff.mp hy).2.1
    bv_omega
  rcases Nat.lt_or_ge (x.toNat / 2 ^ r.lowestBit) (a.toNat / 2 ^ r.lowestBit) with hlt | hge
  · exact contains_of_block hseen (by omega) hy hs he
  · exact contains_of_block hseen (by omega) hx hs he

/-! ## The test -/

/-- `isSubset` answers, and says whether the range is a subset. -/
def SubsetExact (t r : AddrRange) : Prop :=
  ∃ b, t.isSubset r = .ok b ∧
    (b = true ↔ ∀ a, t.contains a = .ok true → r.contains a = .ok true)

/-- What a range that is not interleaved contains, when it contains something. -/
theorem contains_of_nonempty (ht : t.masks = []) (hne : ∃ a, t.contains a = .ok true) :
    t.start < t.end_ ∧ ∀ a, t.contains a = .ok true ↔ t.start ≤ a ∧ a < t.end_ := by
  obtain ⟨b, hb⟩ := hne
  obtain ⟨hs, he, hsel⟩ := contains_iff.mp hb
  refine ⟨by bv_omega, fun a => ?_⟩
  have hsame : t.sel a = t.sel b := by
    unfold AddrRange.sel
    rw [ht]
    rfl
  rw [contains_iff, hsame, hsel]
  simp only [and_true]

/-- A plain range contains its interval when its match value is zero, and nothing otherwise. -/
theorem contains_iff_of_plain (hr : r.masks = []) {a : Addr} :
    r.contains a = .ok true ↔ r.start ≤ a ∧ a < r.end_ ∧ r.intlvMatch = 0 := by
  rw [contains_iff]
  have hsel : r.sel a = .ok 0 := by
    unfold AddrRange.sel
    rw [hr]
    rfl
  rw [hsel, Except.ok.injEq]
  refine and_congr_right fun _ => and_congr_right fun _ => ?_
  constructor
  · intro h
    bv_omega
  · intro h
    rw [h]
    rfl

theorem contains_total (hlen : r.masks.length ≤ 32) (a : Addr) : ∃ b, r.contains a = .ok b := by
  unfold AddrRange.contains
  split
  · obtain ⟨s, hs, -⟩ := sel_eq hlen a
    exact ⟨_, bind_eq_ok.mpr ⟨s, hs, rfl⟩⟩
  · exact ⟨false, rfl⟩

theorem isSubset_plain (ht : t.masks = []) (hr : r.masks = []) :
    t.isSubset r = .ok (decide (r.start ≤ t.start) && decide (t.end_ ≤ r.end_)) := by
  unfold AddrRange.isSubset
  rw [show t.interleaved = false from decide_eq_false (not_not.mpr ht),
    show r.interleaved = false from decide_eq_false (not_not.mpr hr)]
  rfl

/-- The tests against an interleaved range, in the order of the source. -/
theorem isSubset_interleaved (ht : t.masks = []) (hr : r.masks ≠ []) :
    t.isSubset r = (do
      let first ← r.contains t.start
      if first = false then return false
      let last ← r.contains (t.end_ - 1)
      if last = false then return false
      let granularity ← r.granularity
      return t.end_ - t.start ≤ granularity) := by
  have hsize : t.size = .ok (t.end_ - t.start) := by
    unfold AddrRange.size
    rw [ht]
    exact congrArg Except.ok (BitVec.ushiftRight_zero _)
  unfold AddrRange.isSubset
  rw [show t.interleaved = false from decide_eq_false (not_not.mpr ht),
    show r.interleaved = true from decide_eq_true hr, hsize]
  rfl

/-- A test that answers no for an end that is not in the range. -/
theorem exact_of_false {a : Addr} (h : t.isSubset r = .ok false) (ha : t.contains a = .ok true)
    (hout : r.contains a = .ok false) : SubsetExact t r := by
  refine ⟨false, h, fun hfalse => Bool.noConfusion hfalse, fun hsub => ?_⟩
  rw [hsub a ha] at hout
  cases hout

theorem not_exact_of_error {e : Fail} (h : t.isSubset r = .error e) : ¬SubsetExact t r := by
  rintro ⟨b, hb, -⟩
  rw [h] at hb
  cases hb

/-- The granularity as a number. -/
theorem toNat_granularity (h : SeenByInt r) : (1#64 <<< r.lowestBit).toNat = 2 ^ r.lowestBit := by
  have hlt : 2 ^ r.lowestBit < 2 ^ 64 :=
    Nat.pow_lt_pow_right (by decide) (by have := (lowestBit_spec h).1; omega)
  rw [BitVec.toNat_shiftLeft, Nat.shiftLeft_eq]
  simp only [BitVec.toNat_ofNat]
  omega

/-- **Both ends in the range**: the comparison of the sizes is exact unless the range straddles two
blocks. -/
theorem size_test_exact (hseen : SeenByInt r) (hne : t.start < t.end_)
    (hfirst : r.contains t.start = .ok true) (hlast : r.contains (t.end_ - 1) = .ok true) :
    ((t.end_ - t.start ≤ 1#64 <<< r.lowestBit) ↔
        ∀ a, t.start ≤ a ∧ a < t.end_ → r.contains a = .ok true) ↔
      ¬Straddles t r := by
  have hone := toNat_granularity hseen
  have hpos : 0 < 2 ^ r.lowestBit := Nat.two_pow_pos _
  have hlastNat : (t.end_ - 1).toNat = t.end_.toNat - 1 := by bv_omega
  have hle : t.end_ - t.start ≤ 1#64 <<< r.lowestBit ↔
      t.end_.toNat - t.start.toNat ≤ 2 ^ r.lowestBit := by
    rw [BitVec.le_def, hone, show (t.end_ - t.start).toNat = t.end_.toNat - t.start.toNat by
      bv_omega]
  have hsub : (∀ a, t.start ≤ a ∧ a < t.end_ → r.contains a = .ok true) ↔
      (t.end_ - 1).toNat / 2 ^ r.lowestBit ≤ t.start.toNat / 2 ^ r.lowestBit + 1 := by
    constructor
    · exact fun h => last_block_le hseen hne fun a hs he => h a ⟨hs, he⟩
    · intro hnear a ⟨hs, he⟩
      exact contains_of_two_blocks hseen hfirst hlast hs (by bv_omega) hnear
  rw [hle, hsub, Straddles, hlastNat]
  by_cases hsize : t.end_.toNat - t.start.toNat ≤ 2 ^ r.lowestBit
  · -- no longer than a block: at most the next block is met
    have hnear : (t.end_.toNat - 1) / 2 ^ r.lowestBit ≤ t.start.toNat / 2 ^ r.lowestBit + 1 := by
      rw [← Nat.add_div_right _ hpos]
      exact Nat.div_le_div_right (by omega)
    exact iff_of_true (iff_of_true hsize hnear) fun h => absurd h.1 (not_lt.mpr hsize)
  · -- longer than a block: another block is met
    have hfar : t.start.toNat / 2 ^ r.lowestBit + 1 ≤ (t.end_.toNat - 1) / 2 ^ r.lowestBit := by
      rw [← Nat.add_div_right _ hpos]
      exact Nat.div_le_div_right (by omega)
    constructor
    · rintro h ⟨-, hnext⟩
      exact hsize (h.mpr hnext.le)
    · intro h
      refine iff_of_false hsize fun hnear => ?_
      exact h ⟨by omega, by omega⟩

/-- **When `isSubset` is exact**, for a range that is not interleaved and contains something. -/
theorem isSubset_exact_iff (t r : AddrRange) (ht : t.masks = [])
    (hne : ∃ a, t.contains a = .ok true) : SubsetExact t r ↔ Decides t r := by
  obtain ⟨hlt, hcont⟩ := contains_of_nonempty ht hne
  have hstart : t.contains t.start = .ok true := (hcont _).mpr ⟨BitVec.le_refl _, hlt⟩
  have hend : t.contains (t.end_ - 1) = .ok true := (hcont _).mpr ⟨by bv_omega, by bv_omega⟩
  unfold Decides
  by_cases hr : r.masks = []
  · rw [if_pos hr, SubsetExact, isSubset_plain ht hr]
    simp only [Except.ok.injEq, exists_eq_left', Bool.and_eq_true, decide_eq_true_eq, hcont,
      contains_iff_of_plain hr]
    constructor
    · intro h
      by_cases hin : r.start ≤ t.start ∧ t.end_ ≤ r.end_
      · exact .inl (h.mp hin t.start ⟨BitVec.le_refl _, hlt⟩).2.2
      · exact .inr hin
    · rintro (hzero | hout)
      · constructor
        · rintro ⟨h1, h2⟩ a ⟨hs, he⟩
          exact ⟨by bv_omega, by bv_omega, hzero⟩
        · intro h
          have hfirst := h t.start ⟨BitVec.le_refl _, hlt⟩
          have hlast := h (t.end_ - 1) ⟨by bv_omega, by bv_omega⟩
          exact ⟨hfirst.1, by bv_omega⟩
      · refine iff_of_false hout fun h => hout ?_
        have hfirst := h t.start ⟨BitVec.le_refl _, hlt⟩
        have hlast := h (t.end_ - 1) ⟨by bv_omega, by bv_omega⟩
        exact ⟨hfirst.1, by bv_omega⟩
  · rw [if_neg hr]
    have htest := isSubset_interleaved ht hr
    by_cases hin : r.start ≤ t.start ∧ t.start < r.end_
    swap
    · have hfirst : r.contains t.start = .ok false := if_neg hin
      rw [hfirst] at htest
      exact iff_of_true (exact_of_false htest hstart hfirst) fun h1 h2 => absurd ⟨h1, h2⟩ hin
    by_cases hlen : r.masks.length ≤ 32
    swap
    · have hfirst : r.contains t.start = .error .undefinedShift := by
        unfold AddrRange.contains AddrRange.sel
        rw [if_pos hin, selLoop_error (by omega) (by decide)]
        rfl
      rw [hfirst] at htest
      exact iff_of_false (not_exact_of_error htest) fun h => hlen (h hin.1 hin.2).1
    obtain ⟨first, hfirst⟩ := contains_total hlen t.start
    obtain ⟨last, hlast⟩ := contains_total hlen (t.end_ - 1)
    rw [hfirst, hlast] at htest ⊢
    cases first with
    | false =>
        refine iff_of_true (exact_of_false htest hstart hfirst) fun _ _ => ⟨hlen, fun h => ?_⟩
        cases h
    | true =>
        cases last with
        | false =>
            refine iff_of_true (exact_of_false htest hend hlast) fun _ _ => ⟨hlen, fun _ h => ?_⟩
            cases h
        | true =>
            by_cases hseen : SeenByInt r
            · rw [granularity_eq hr hseen] at htest
              rw [SubsetExact, htest]
              have hexact := size_test_exact hseen hlt hfirst hlast
              constructor
              · rintro ⟨b, hb, hiff⟩ - -
                obtain rfl := Except.ok.inj hb
                simp only [decide_eq_true_eq, hcont] at hiff
                exact ⟨hlen, fun _ _ => ⟨hseen, hexact.mp hiff⟩⟩
              · intro h
                refine ⟨_, rfl, ?_⟩
                simp only [decide_eq_true_eq, hcont]
                exact hexact.mpr ((h hin.1 hin.2).2 rfl rfl).2
            · rw [granularity_error hr hseen] at htest
              exact iff_of_false (not_exact_of_error htest) fun h =>
                hseen ((h hin.1 hin.2).2 rfl rfl).1

/-- The addresses below 256 in which bits 6 and 7 differ. -/
def differing : AddrRange := ⟨0, 256, [0xC0], 1⟩

theorem isSubset_exact_block : SubsetExact (AddrRange.plain 64 96) differing ↔
    Decides (AddrRange.plain 64 96) differing :=
  isSubset_exact_iff _ _ rfl ⟨64, by decide⟩

/-- The two middle blocks are in the range, and the test says they are not. -/
theorem isSubset_straddling :
    (∀ a, (AddrRange.plain 64 192).contains a = .ok true → differing.contains a = .ok true) ∧
      (AddrRange.plain 64 192).isSubset differing = .ok false := by
  refine ⟨fun a ha => ?_, by decide⟩
  have hseen : SeenByInt differing := ⟨0xC0, by decide, 6, by decide, by decide⟩
  obtain ⟨hs, he⟩ := contains_plain.mp ha
  refine contains_of_two_blocks (x := 64) (y := 191) hseen (by decide) (by decide) hs ?_ (by decide)
  bv_omega

end Gem5.Base
