/-
# The legacy constructor of address ranges

Embedding of the constructor of `AddrRange` (`base/addr_range.hh`) that takes an interleaving field
and a field to hash it with, by their highest bits and their width.  It writes the fields as one
mask for each bit, which `contains` evaluates one by one.

The constructor does not check that the fields are bits of an address, and `contains` collects the
bits in an `int`; `legacy_exact_iff` says for which of the accepted parameters the range means what
the fields say.
-/
import Gem5.AddrRange

namespace Gem5.Base

open Runs

/-! ## The constructor -/

/-- The parameters of the constructor. -/
structure LegacyParams where
  start : Addr
  end_ : Addr
  intlvHighBit : BitVec 8
  xorHighBit : BitVec 8
  intlvBits : BitVec 8
  intlvMatch : BitVec 8
  deriving DecidableEq, Repr

/-- What stops the constructor. -/
inductive LegacyFault where
  /-- a fault that other functions of `AddrRange` have as well -/
  | range (f : Fail)
  /-- `fatal("XOR and interleave high bit must be different")` -/
  | sameHighBit
  /-- `fatal("XOR and interleave high bit must be at least %d bits apart")`, or the same with the
  fields in the other order -/
  | tooClose
  deriving DecidableEq, Repr

/-- `1ULL << n` -/
def shiftedOne (n : ℕ) : Except LegacyFault Addr := do
  require (.range .undefinedShift) (n < 64)
  return 1#64 <<< n

namespace LegacyParams

/-- The number of interleaving bits. -/
def width (p : LegacyParams) : ℕ := p.intlvBits.toNat

/-- The check that the fields do not overlap. -/
def checkApart (p : LegacyParams) : Except LegacyFault Unit :=
  if p.intlvBits ≠ 0 ∧ p.xorHighBit ≠ 0 then
    if p.xorHighBit = p.intlvHighBit then .error .sameHighBit
    else if p.intlvHighBit < p.xorHighBit then
      require .tooClose (p.width ≤ p.xorHighBit.toNat - p.intlvHighBit.toNat)
    else require .tooClose (p.width ≤ p.intlvHighBit.toNat - p.xorHighBit.toNat)
  else .ok ()

/-- The check of the match value. -/
def checkMatch (p : LegacyParams) : Except LegacyFault Unit :=
  if p.intlvBits ≠ 0 then do
    let limit ← shiftedOne p.width
    require (.range .matchTooLarge) (p.intlvMatch.toNat < limit.toNat)
  else .ok ()

/-- The mask of iteration `i`; the positions are `uint8_t`. -/
def mask (p : LegacyParams) (i : ℕ) : Except LegacyFault Addr := do
  let mask ← shiftedOne (p.intlvHighBit - BitVec.ofNat 8 i).toNat
  if p.xorHighBit ≠ 0 then
    let bit2 ← shiftedOne (p.xorHighBit - BitVec.ofNat 8 i).toNat
    return mask ||| bit2
  else return mask

/-- The last `k` iterations of the loop: iteration `i` writes the mask `_intlv_bits - i - 1`. -/
def fillMasks (p : LegacyParams) : ℕ → List Addr → Except LegacyFault (List Addr)
  | 0, masks => .ok masks
  | k + 1, masks => do
      let mask ← p.mask (p.width - (k + 1))
      p.fillMasks k (masks.set k mask)

/-- `AddrRange(_start, _end, _intlv_high_bit, _xor_high_bit, _intlv_bits, _intlv_match)` -/
def toRange (p : LegacyParams) : Except LegacyFault AddrRange := do
  p.checkMatch
  p.checkApart
  let masks ← p.fillMasks p.width (List.replicate p.width 0)
  return ⟨p.start, p.end_, masks, p.intlvMatch⟩

/-! ## What the parameters say -/

/-- The field of `width` bits below and at the position `high`. -/
def field (p : LegacyParams) (high : BitVec 8) (a : Addr) : Addr :=
  bits a high.toNat (high.toNat + 1 - p.width)

/-- **The addresses that the parameters describe.** -/
def Describes (p : LegacyParams) (a : Addr) : Prop :=
  p.start ≤ a ∧ a < p.end_ ∧
  (p.intlvBits ≠ 0 →
    p.field p.intlvHighBit a ^^^ (if p.xorHighBit ≠ 0 then p.field p.xorHighBit a else 0) =
      p.intlvMatch.setWidth 64)

instance (p : LegacyParams) (a : Addr) : Decidable (p.Describes a) :=
  inferInstanceAs (Decidable (_ ∧ _))

/-- The bits of a field of `width` bits are bits of an address. -/
def InAddress (p : LegacyParams) (high : BitVec 8) : Prop :=
  p.width ≤ high.toNat + 1 ∧ high.toNat < 64

instance (p : LegacyParams) (high : BitVec 8) : Decidable (p.InAddress high) :=
  inferInstanceAs (Decidable (_ ∧ _))

/-- The fields are bits of an address, and there are at most 32 of them; without fields the match
value is zero.  For an empty interval the fields and the match value may be anything that can be
constructed. -/
def Meaningful (p : LegacyParams) : Prop :=
  if p.intlvBits = 0 then p.intlvMatch = 0 ∨ p.end_ ≤ p.start
  else
    p.width < 64 ∧ p.InAddress p.intlvHighBit ∧ (p.xorHighBit ≠ 0 → p.InAddress p.xorHighBit) ∧
    (p.width ≤ 32 ∨ p.end_ ≤ p.start)

instance (p : LegacyParams) : Decidable p.Meaningful := by
  unfold Meaningful
  infer_instance

/-- The constructor does not end with one of its messages. -/
def Accepted (p : LegacyParams) : Prop :=
  ∀ e, p.toRange = .error e → e = .range .undefinedShift

end LegacyParams

/-! ## Masks -/

theorem shiftedOne_ok {n : ℕ} {v : Addr} (h : shiftedOne n = .ok v) : n < 64 ∧ v = 1#64 <<< n := by
  unfold shiftedOne at h
  obtain ⟨_, hlt, h⟩ := bind_eq_ok.mp h
  exact ⟨of_decide_eq_true (require_eq_ok.mp hlt), (Except.ok.inj h).symm⟩

theorem shiftedOne_of_lt {n : ℕ} (h : n < 64) : shiftedOne n = .ok (1#64 <<< n) :=
  bind_eq_ok.mpr ⟨(), require_ok (decide_eq_true h), rfl⟩

theorem parity_zero : parity (0 : Addr) = false := by decide

/-- The parity of one bit. -/
theorem parity_bit {p : ℕ} (hp : p < 64) (a : Addr) :
    parity (a &&& 1#64 <<< p) = a.getLsbD p := by
  rw [parity_split (w := 0) hp BitVec.getLsbD_zero fun i hi hne => ?_, parity_zero, Bool.xor_false,
    BitVec.getLsbD_and, getLsbD_bit hp, decide_eq_true rfl, Bool.and_true]
  rw [BitVec.getLsbD_and, getLsbD_bit hp, decide_eq_false hne, Bool.and_false]
  exact BitVec.getLsbD_zero.symm

/-- The parity of two bits. -/
theorem parity_two_bits {p q : ℕ} (hp : p < 64) (hq : q < 64) (hne : p ≠ q) (a : Addr) :
    parity (a &&& (1#64 <<< p ||| 1#64 <<< q)) = (a.getLsbD p ^^ a.getLsbD q) := by
  rw [← parity_bit hq a, parity_split (w := a &&& 1#64 <<< q) hp ?_ fun i hi hi' => ?_,
    BitVec.getLsbD_and, BitVec.getLsbD_or, getLsbD_bit hp, decide_eq_true rfl, Bool.true_or,
    Bool.and_true]
  · rw [BitVec.getLsbD_and, getLsbD_bit hq, decide_eq_false hne, Bool.and_false]
  · rw [BitVec.getLsbD_and, BitVec.getLsbD_and, BitVec.getLsbD_or, getLsbD_bit hp,
      decide_eq_false hi', Bool.false_or]

namespace LegacyParams

/-- The position of the lowest bit of a field. -/
def low (p : LegacyParams) (high : BitVec 8) : ℕ := high.toNat + 1 - p.width

/-- The mask for bit `k` of the match value. -/
def maskAt (p : LegacyParams) (k : ℕ) : Addr :=
  if p.xorHighBit ≠ 0 then 1#64 <<< (p.low p.intlvHighBit + k) ||| 1#64 <<< (p.low p.xorHighBit + k)
  else 1#64 <<< (p.low p.intlvHighBit + k)

variable {p : LegacyParams} {high : BitVec 8} {k : ℕ}

theorem width_lt (p : LegacyParams) : p.width < 256 := p.intlvBits.isLt

theorem width_pos (h : p.intlvBits ≠ 0) : 0 < p.width := by
  refine Nat.pos_of_ne_zero fun hzero => h ?_
  exact BitVec.eq_of_toNat_eq hzero

theorem width_of_zero (h : p.intlvBits = 0) : p.width = 0 := congrArg BitVec.toNat h

/-- The position that an iteration computes. -/
theorem InAddress.position (h : p.InAddress high) (hk : k < p.width) :
    (high - BitVec.ofNat 8 (p.width - (k + 1))).toNat = p.low high + k ∧ p.low high + k < 64 := by
  obtain ⟨hwidth, hlt⟩ := h
  have hspace := p.width_lt
  unfold low
  rw [BitVec.toNat_sub, BitVec.toNat_ofNat]
  omega

theorem mask_ok (hin : p.InAddress p.intlvHighBit)
    (hxor : p.xorHighBit ≠ 0 → p.InAddress p.xorHighBit) (hk : k < p.width) :
    p.mask (p.width - (k + 1)) = .ok (p.maskAt k) := by
  obtain ⟨hpos, hlt⟩ := hin.position hk
  unfold mask maskAt
  rw [hpos, shiftedOne_of_lt hlt]
  by_cases hx : p.xorHighBit ≠ 0
  · obtain ⟨hxpos, hxlt⟩ := (hxor hx).position hk
    rw [if_pos hx, hxpos, shiftedOne_of_lt hxlt]
    exact if_pos hx
  · rw [if_neg hx]
    exact if_neg hx

/-- **The loop** writes a mask for each bit of the match value. -/
theorem fillMasks_ok (hin : p.InAddress p.intlvHighBit)
    (hxor : p.xorHighBit ≠ 0 → p.InAddress p.xorHighBit) {masks : List Addr} (hk : k ≤ p.width) :
    ∃ masks', p.fillMasks k masks = .ok masks' ∧ masks'.length = masks.length ∧
      ∀ j < masks.length, masks'[j]? = if j < k then some (p.maskAt j) else masks[j]? := by
  induction k generalizing masks with
  | zero => exact ⟨masks, rfl, rfl, fun j _ => (if_neg (Nat.not_lt_zero j)).symm⟩
  | succ k ih =>
    obtain ⟨masks', hrun, hlength, hget⟩ := @ih (masks.set k (p.maskAt k)) (by omega)
    rw [List.length_set] at hlength hget
    refine ⟨masks', ?_, hlength, fun j hj => ?_⟩
    · unfold fillMasks
      rw [mask_ok hin hxor hk]
      exact hrun
    · rw [hget j hj]
      rcases Nat.lt_trichotomy j k with hjk | rfl | hjk
      · rw [if_pos hjk, if_pos (by omega)]
      · rw [if_neg (Nat.lt_irrefl j), if_pos (Nat.lt_succ_self j), List.getElem?_set_self hj]
      · rw [if_neg (by omega), if_neg (by omega), List.getElem?_set_ne (by omega)]

/-- The loop does not come to an end when a shift is not defined. -/
theorem mask_of_fillMasks {masks masks' : List Addr} (h : p.fillMasks k masks = .ok masks') :
    ∀ j < k, ∃ v, p.mask (p.width - (j + 1)) = .ok v := by
  induction k generalizing masks with
  | zero => exact fun j hj => absurd hj (Nat.not_lt_zero j)
  | succ k ih =>
    unfold fillMasks at h
    obtain ⟨v, hv, h⟩ := bind_eq_ok.mp h
    intro j hj
    rcases Nat.lt_succ_iff_lt_or_eq.mp hj with hj | rfl
    · exact ih h j hj
    · exact ⟨v, hv⟩

/-- The positions of a mask are in the word. -/
theorem shifts_of_mask {i : ℕ} {v : Addr} (h : p.mask i = .ok v) :
    (p.intlvHighBit - BitVec.ofNat 8 i).toNat < 64 ∧
    (p.xorHighBit ≠ 0 → (p.xorHighBit - BitVec.ofNat 8 i).toNat < 64) := by
  unfold mask at h
  obtain ⟨m, hm, h⟩ := bind_eq_ok.mp h
  refine ⟨(shiftedOne_ok hm).1, fun hx => ?_⟩
  rw [if_pos hx] at h
  obtain ⟨b, hb, -⟩ := bind_eq_ok.mp h
  exact (shiftedOne_ok hb).1

/-- A field of which the highest and the lowest position are in the word. -/
theorem inAddress_of_shifts (hpos : 0 < p.width) (hwidth : p.width < 64)
    (hfirst : (high - BitVec.ofNat 8 (p.width - (p.width - 1 + 1))).toNat < 64)
    (hlast : (high - BitVec.ofNat 8 (p.width - (0 + 1))).toNat < 64) : p.InAddress high := by
  have hhigh := high.isLt
  rw [BitVec.toNat_sub, BitVec.toNat_ofNat] at hfirst hlast
  unfold InAddress
  omega

/-! ## Both descriptions -/

/-- Bit `k` of the selector. -/
def selBit (p : LegacyParams) (a : Addr) (k : ℕ) : Bool :=
  a.getLsbD (p.low p.intlvHighBit + k) ^^
    (decide (p.xorHighBit ≠ 0) && a.getLsbD (p.low p.xorHighBit + k))

theorem parity_maskAt (hin : p.InAddress p.intlvHighBit)
    (hxor : p.xorHighBit ≠ 0 → p.InAddress p.xorHighBit ∧ p.xorHighBit ≠ p.intlvHighBit)
    (hk : k < p.width) (a : Addr) : parity (a &&& p.maskAt k) = p.selBit a k := by
  have hlt := (hin.position hk).2
  unfold maskAt selBit
  by_cases hx : p.xorHighBit ≠ 0
  · obtain ⟨hxin, hne⟩ := hxor hx
    have hlows : p.low p.intlvHighBit + k ≠ p.low p.xorHighBit + k := by
      have hnat : p.xorHighBit.toNat ≠ p.intlvHighBit.toNat :=
        fun h => hne (BitVec.eq_of_toNat_eq h)
      have h1 := hin.1
      have h2 := hxin.1
      unfold low
      omega
    rw [if_pos hx, parity_two_bits hlt (hxin.position hk).2 hlows, decide_eq_true hx, Bool.true_and]
  · rw [if_neg hx, parity_bit hlt, decide_eq_false hx, Bool.false_and, Bool.xor_false]

theorem getLsbD_field (hin : p.InAddress high) (hpos : 0 < p.width) (a : Addr) (k : ℕ) :
    (p.field high a).getLsbD k = (a.getLsbD (p.low high + k) && decide (k < p.width)) := by
  have hwidth : high.toNat - (high.toNat + 1 - p.width) + 1 = p.width := by
    have := hin.1
    omega
  unfold field
  rw [getLsbD_bits, hwidth]
  rfl

/-- The selector of the fields, bit by bit. -/
theorem getLsbD_fields (hin : p.InAddress p.intlvHighBit)
    (hxor : p.xorHighBit ≠ 0 → p.InAddress p.xorHighBit) (hpos : 0 < p.width) (a : Addr) (k : ℕ) :
    (p.field p.intlvHighBit a ^^^ (if p.xorHighBit ≠ 0 then p.field p.xorHighBit a else 0)).getLsbD
      k = (p.selBit a k && decide (k < p.width)) := by
  unfold selBit
  rw [BitVec.getLsbD_xor, getLsbD_field hin hpos]
  by_cases hx : p.xorHighBit ≠ 0
  · rw [if_pos hx, getLsbD_field (hxor hx) hpos, decide_eq_true hx, Bool.true_and,
      ← Bool.and_xor_distrib_right]
  · rw [if_neg hx, decide_eq_false hx, Bool.false_and, Bool.xor_false]
    show (_ ^^ (0 : Addr).getLsbD k) = _
    rw [show (0 : Addr).getLsbD k = false from BitVec.getLsbD_zero, Bool.xor_false]

/-- **The masks select what the fields select.** -/
theorem selects_iff_fields {r : AddrRange} (hin : p.InAddress p.intlvHighBit)
    (hxor : p.xorHighBit ≠ 0 → p.InAddress p.xorHighBit ∧ p.xorHighBit ≠ p.intlvHighBit)
    (hpos : 0 < p.width) (hmatch : r.intlvMatch = p.intlvMatch)
    (hfit : p.intlvMatch.toNat < 2 ^ p.width) (hlength : r.masks.length = p.width)
    (hmasks : ∀ j < p.width, r.masks[j]? = some (p.maskAt j)) (a : Addr) :
    r.Selects a ↔
      p.field p.intlvHighBit a ^^^ (if p.xorHighBit ≠ 0 then p.field p.xorHighBit a else 0) =
        p.intlvMatch.setWidth 64 := by
  have hbits := getLsbD_fields hin (fun hx => (hxor hx).1) hpos a
  constructor
  · intro hselects
    apply BitVec.eq_of_getLsbD_eq
    intro k hk
    rw [hbits, BitVec.getLsbD_setWidth, decide_eq_true hk, Bool.true_and]
    by_cases hkw : k < p.width
    · have hparity := hselects k _ (hmasks k hkw)
      rw [parity_maskAt hin hxor hkw, hmatch] at hparity
      rw [hparity, decide_eq_true hkw, Bool.and_true]
    · rw [decide_eq_false hkw, Bool.and_false]
      exact (getLsbD_intlvMatch_of_fits hfit (Nat.le_of_not_lt hkw)).symm
  · intro hfields k m hm
    have hkw : k < p.width := by
      rw [← hlength]
      exact (List.getElem?_eq_some_iff.mp hm).1
    have hk64 : k < 64 := by
      have := hin.1
      have := hin.2
      omega
    obtain rfl := Option.some.inj ((hmasks k hkw).symm.trans hm)
    have hbit := hbits k
    rw [hfields, BitVec.getLsbD_setWidth, decide_eq_true hk64, Bool.true_and, decide_eq_true hkw,
      Bool.and_true] at hbit
    rw [parity_maskAt hin hxor hkw, hmatch, hbit]

/-- A range whose selector is defined contains the addresses that it selects. -/
theorem contains_eq {r : AddrRange} (hlen : r.masks.length ≤ 32)
    (hfit : r.intlvMatch.toNat < 2 ^ r.masks.length) {P : Addr → Prop} [DecidablePred P]
    (hP : ∀ a, P a ↔ r.start ≤ a ∧ a < r.end_ ∧ r.Selects a) (a : Addr) :
    r.contains a = .ok (decide (P a)) := by
  obtain ⟨s, hs, -⟩ := sel_eq hlen a
  unfold AddrRange.contains
  by_cases hin : r.start ≤ a ∧ a < r.end_
  · rw [if_pos hin, hs]
    show Except.ok (decide (s = r.intlvMatch.setWidth 32)) = _
    rw [decide_eq_decide.mpr]
    rw [hP]
    constructor
    · intro h
      rw [h] at hs
      exact ⟨hin.1, hin.2, (selects_of_sel hs).2⟩
    · rintro ⟨-, -, hselects⟩
      exact Except.ok.inj (hs.symm.trans (sel_of_selects hlen hfit hselects))
  · rw [if_neg hin, decide_eq_false]
    rw [hP]
    rintro ⟨h1, h2, -⟩
    exact hin ⟨h1, h2⟩

theorem toNat_shiftedOne {n : ℕ} (h : n < 64) : (1#64 <<< n).toNat = 2 ^ n := by
  have hlt : 2 ^ n < 2 ^ 64 := Nat.pow_lt_pow_right (by decide) h
  rw [BitVec.toNat_shiftLeft, Nat.shiftLeft_eq]
  simp only [BitVec.toNat_ofNat]
  omega

theorem checkMatch_eq (hbits : p.intlvBits ≠ 0) (hwidth : p.width < 64) :
    p.checkMatch = require (.range .matchTooLarge) (p.intlvMatch.toNat < 2 ^ p.width) := by
  unfold checkMatch
  rw [if_pos hbits, shiftedOne_of_lt hwidth]
  show require _ (decide (p.intlvMatch.toNat < (1#64 <<< p.width).toNat)) = _
  rw [toNat_shiftedOne hwidth]

/-- The check of the match value passes with a width of a word only. -/
theorem fits_of_checkMatch (hbits : p.intlvBits ≠ 0) (h : p.checkMatch = .ok ()) :
    p.width < 64 ∧ p.intlvMatch.toNat < 2 ^ p.width := by
  have hwidth : p.width < 64 := by
    unfold checkMatch at h
    rw [if_pos hbits] at h
    obtain ⟨limit, hlimit, -⟩ := bind_eq_ok.mp h
    exact (shiftedOne_ok hlimit).1
  rw [checkMatch_eq hbits hwidth] at h
  exact ⟨hwidth, of_decide_eq_true (require_eq_ok.mp h)⟩

theorem ne_of_checkApart (hbits : p.intlvBits ≠ 0) (hx : p.xorHighBit ≠ 0)
    (h : p.checkApart = .ok ()) : p.xorHighBit ≠ p.intlvHighBit := by
  intro heq
  unfold checkApart at h
  rw [if_pos ⟨hbits, hx⟩, if_pos heq] at h
  cases h

/-- The check of the fields ends with its messages only. -/
theorem checkApart_cases (p : LegacyParams) :
    p.checkApart = .ok () ∨ p.checkApart = .error .sameHighBit ∨
      p.checkApart = .error .tooClose := by
  unfold checkApart require
  split_ifs <;> simp

/-- A constructor that comes to its end has passed its checks and its loop. -/
theorem toRange_ok {r : AddrRange} (h : p.toRange = .ok r) :
    p.checkMatch = .ok () ∧ p.checkApart = .ok () ∧
    ∃ masks, p.fillMasks p.width (List.replicate p.width 0) = .ok masks ∧
      r = ⟨p.start, p.end_, masks, p.intlvMatch⟩ := by
  unfold toRange at h
  obtain ⟨_, hmatch, h⟩ := bind_eq_ok.mp h
  obtain ⟨_, hapart, h⟩ := bind_eq_ok.mp h
  obtain ⟨masks, hmasks, h⟩ := bind_eq_ok.mp h
  exact ⟨hmatch, hapart, masks, hmasks, (Except.ok.inj h).symm⟩

/-- An accepted width of a word passes both checks. -/
theorem checks_of_accepted (hp : p.Accepted) (hwidth : p.width < 64) :
    p.checkMatch = .ok () ∧ p.checkApart = .ok () := by
  have hmatch : p.checkMatch = .ok () := by
    by_cases hbits : p.intlvBits ≠ 0
    · by_contra hne
      have hfail : p.checkMatch = .error (.range .matchTooLarge) := by
        rw [checkMatch_eq hbits hwidth] at hne ⊢
        exact require_eq_error.mpr ⟨by simpa [require_eq_ok] using hne, rfl⟩
      have hrun : p.toRange = .error (.range .matchTooLarge) := by
        unfold toRange
        rw [hfail]
        rfl
      cases hp _ hrun
    · exact if_neg hbits
  refine ⟨hmatch, ?_⟩
  rcases p.checkApart_cases with hok | hfail
  · exact hok
  · have hrun : ∀ e, p.checkApart = .error e → p.toRange = .error e := by
      intro e he
      unfold toRange
      rw [hmatch, he]
      rfl
    rcases hfail with hfail | hfail
    · cases hp _ (hrun _ hfail)
    · cases hp _ (hrun _ hfail)

/-- Parameters that give a range have their fields in an address. -/
theorem positions_of_toRange {r : AddrRange} (hbits : p.intlvBits ≠ 0) (h : p.toRange = .ok r) :
    p.width < 64 ∧ p.InAddress p.intlvHighBit ∧ (p.xorHighBit ≠ 0 → p.InAddress p.xorHighBit) := by
  obtain ⟨hmatch, -, masks, hmasks, -⟩ := toRange_ok h
  have hwidth := (fits_of_checkMatch hbits hmatch).1
  have hpos := width_pos hbits
  obtain ⟨v, hv⟩ := mask_of_fillMasks hmasks (p.width - 1) (by omega)
  obtain ⟨v', hv'⟩ := mask_of_fillMasks hmasks 0 hpos
  have hfirst := shifts_of_mask hv
  have hlast := shifts_of_mask hv'
  exact ⟨hwidth, inAddress_of_shifts hpos hwidth hfirst.1 hlast.1,
    fun hx => inAddress_of_shifts hpos hwidth (hfirst.2 hx) (hlast.2 hx)⟩

/-- **The range of parameters** whose fields are in an address. -/
theorem toRange_eq (hmatch : p.checkMatch = .ok ()) (hapart : p.checkApart = .ok ())
    (hin : p.InAddress p.intlvHighBit) (hxor : p.xorHighBit ≠ 0 → p.InAddress p.xorHighBit) :
    ∃ masks, p.toRange = .ok ⟨p.start, p.end_, masks, p.intlvMatch⟩ ∧ masks.length = p.width ∧
      ∀ j < p.width, masks[j]? = some (p.maskAt j) := by
  obtain ⟨masks, hmasks, hlength, hget⟩ :=
    @fillMasks_ok p p.width hin hxor (List.replicate p.width 0) le_rfl
  rw [List.length_replicate] at hlength hget
  refine ⟨masks, ?_, hlength, fun j hj => ?_⟩
  · unfold toRange
    rw [hmatch, hapart]
    show (p.fillMasks p.width (List.replicate p.width 0) >>= _) = _
    rw [hmasks]
    rfl
  · rw [hget j hj, if_pos hj]

/-- No address is in an empty interval. -/
theorem contains_of_empty {r : AddrRange} (h : r.end_ ≤ r.start) (a : Addr) :
    r.contains a = .ok false := by
  refine if_neg fun hin => ?_
  bv_omega

theorem not_describes_of_empty (h : p.end_ ≤ p.start) (a : Addr) : ¬p.Describes a := by
  rintro ⟨h1, h2, -⟩
  bv_omega

/-- Without fields only the interval counts, if the match value is zero. -/
theorem toRange_plain (hbits : p.intlvBits = 0) :
    p.toRange = .ok ⟨p.start, p.end_, [], p.intlvMatch⟩ := by
  have hmatch : p.checkMatch = .ok () := if_neg (not_not.mpr hbits)
  have hapart : p.checkApart = .ok () := if_neg fun h => h.1 hbits
  unfold toRange
  rw [hmatch, hapart, width_of_zero hbits]
  rfl

end LegacyParams

open LegacyParams

/-- **When the legacy constructor means what it says**: for the parameters that it accepts, the
range contains exactly the addresses that the fields describe if and only if the fields are bits of
an address, with at most 32 interleaving bits, and a range without them has the match value zero; or
the interval is empty. -/
theorem legacy_exact_iff {p : LegacyParams} (hp : p.Accepted) :
    (∃ r, p.toRange = .ok r ∧ ∀ a, r.contains a = .ok (decide (p.Describes a))) ↔ p.Meaningful := by
  unfold Meaningful
  by_cases hbits : p.intlvBits = 0
  · have hrange := toRange_plain hbits
    have hdescribes : ∀ a, p.Describes a ↔ p.start ≤ a ∧ a < p.end_ := fun a =>
      ⟨fun h => ⟨h.1, h.2.1⟩, fun h => ⟨h.1, h.2, fun hne => absurd hbits hne⟩⟩
    rw [if_pos hbits]
    constructor
    · rintro ⟨r, hr, hcontains⟩
      obtain rfl := Except.ok.inj (hrange.symm.trans hr)
      by_contra hnot
      rw [not_or, BitVec.not_le] at hnot
      have hfirst := hcontains p.start
      have hin : p.start ≤ p.start ∧ p.start < p.end_ := ⟨BitVec.le_refl _, hnot.2⟩
      rw [decide_eq_true ((hdescribes _).mpr hin)] at hfirst
      obtain ⟨-, -, hsel⟩ := contains_iff.mp hfirst
      refine hnot.1 (BitVec.eq_of_toNat_eq ?_)
      have hzero : 0 = p.intlvMatch.toNat % 2 ^ 32 :=
        (congrArg BitVec.toNat (Except.ok.inj hsel)).trans (BitVec.toNat_setWidth ..)
      have hlt := p.intlvMatch.isLt
      show p.intlvMatch.toNat = 0
      omega
    · rintro (hzero | hempty)
      · refine ⟨_, hrange, contains_eq (Nat.zero_le _) ?_ fun a => ?_⟩
        · show p.intlvMatch.toNat < 1
          rw [hzero]
          decide
        · rw [hdescribes]
          exact ⟨fun h => ⟨h.1, h.2, fun k m hm => by cases hm⟩, fun h => ⟨h.1, h.2.1⟩⟩
      · refine ⟨_, hrange, fun a => ?_⟩
        rw [contains_of_empty hempty, decide_eq_false (not_describes_of_empty hempty a)]
  · rw [if_neg hbits]
    constructor
    · rintro ⟨r, hr, hcontains⟩
      obtain ⟨hwidth, hin, hxor⟩ := positions_of_toRange hbits hr
      obtain ⟨hmatch, hapart, -⟩ := toRange_ok hr
      obtain ⟨masks, hrange, hlength, -⟩ := toRange_eq hmatch hapart hin hxor
      obtain rfl := Except.ok.inj (hrange.symm.trans hr)
      refine ⟨hwidth, hin, hxor, ?_⟩
      by_contra hnot
      rw [not_or, not_le, BitVec.not_le] at hnot
      have hfirst := hcontains p.start
      unfold AddrRange.contains at hfirst
      rw [if_pos ⟨BitVec.le_refl _, hnot.2⟩] at hfirst
      unfold AddrRange.sel at hfirst
      rw [selLoop_error (by show 32 < 0 + masks.length; omega) (by decide)] at hfirst
      cases hfirst
    · rintro ⟨hwidth, hin, hxor, hfew⟩
      obtain ⟨hmatch, hapart⟩ := checks_of_accepted hp hwidth
      obtain ⟨masks, hrange, hlength, hmasks⟩ := toRange_eq hmatch hapart hin hxor
      have hfit := (fits_of_checkMatch hbits hmatch).2
      refine ⟨_, hrange, ?_⟩
      rcases hfew with hfew | hempty
      · refine contains_eq (hlength.trans_le hfew) (hlength.symm ▸ hfit) fun a => ?_
        have hiff := selects_iff_fields (r := ⟨p.start, p.end_, masks, p.intlvMatch⟩) hin
          (fun hx => ⟨hxor hx, ne_of_checkApart hbits hx hapart⟩) (width_pos hbits) rfl hfit hlength
          hmasks a
        rw [hiff]
        exact ⟨fun h => ⟨h.1, h.2.1, h.2.2 hbits⟩, fun h => ⟨h.1, h.2.1, fun _ => h.2.2⟩⟩
      · intro a
        rw [contains_of_empty hempty, decide_eq_false (not_describes_of_empty hempty a)]

/-- Sixteen channels, with the field of bits 9 to 6 hashed with bits 23 to 20. -/
def hashedChannel : LegacyParams := ⟨0, 0x100000000, 9, 23, 4, 5⟩

theorem legacy_hashedChannel :
    (∃ r, hashedChannel.toRange = .ok r ∧
      ∀ a, r.contains a = .ok (decide (hashedChannel.Describes a))) ↔ hashedChannel.Meaningful := by
  refine legacy_exact_iff fun e he => ?_
  obtain ⟨masks, hrange, -⟩ := toRange_eq (p := hashedChannel) (by decide) (by decide) (by decide)
    (by decide)
  rw [hrange] at he
  cases he

/-- Three ranges that do not contain what their parameters say: 33 interleaving bits, a field below
bit 0, and no field with a match value. -/
theorem legacy_wrong :
    (∃ r, (⟨0, 0x100, 63, 0, 33, 0⟩ : LegacyParams).toRange = .ok r ∧
      r.contains 0 = .error .undefinedShift) ∧
    (⟨0, 0x100, 1, 0, 3, 0⟩ : LegacyParams).toRange = .error (.range .undefinedShift) ∧
    ∃ r, (⟨0, 0x100, 0, 0, 0, 1⟩ : LegacyParams).toRange = .ok r ∧ r.contains 0 = .ok false ∧
      (⟨0, 0x100, 0, 0, 0, 1⟩ : LegacyParams).Describes 0 := by
  refine ⟨?_, rfl, ⟨0, 0x100, [], 1⟩, rfl, rfl, by decide⟩
  obtain ⟨masks, hrange, hlength, -⟩ := toRange_eq (p := ⟨0, 0x100, 63, 0, 33, 0⟩) (by decide)
    (by decide) (by decide) (by decide)
  have hmany : 32 < 0 + masks.length := by
    rw [hlength]
    decide
  have hsel : (⟨0, 0x100, masks, 0⟩ : AddrRange).sel 0 = .error .undefinedShift :=
    selLoop_error hmany (by decide)
  refine ⟨_, hrange, (if_pos ⟨BitVec.le_refl _, by show (0 : Addr) < 0x100; decide⟩).trans ?_⟩
  exact congrArg (· >>= _) hsel

end Gem5.Base
