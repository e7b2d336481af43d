/-
# Products of two words

Embedding of the wide multiplications of `base/intmath.hh`.  The product of two words of 64 bits is
computed from four products of their halves; the carry into the high word is the sum of three terms
that does not fit in a word, so it is halved before it is added up.  A compiler with a type of 128
bits does not need this, and both ways give the same words (`mulUnsigned_manual`,
`mulSigned_manual`).
-/
import Mathlib

namespace Gem5.Base

/-! ## The functions -/

/-- `(uint32_t)val`, as a `uint64_t`. -/
def half (val : BitVec 64) : BitVec 64 := (val.setWidth 32).setWidth 64

/-- `mulUnsignedManual`: the high word and the low word. -/
def mulUnsignedManual (val_a val_b : BitVec 64) : BitVec 64 × BitVec 64 :=
  let low := val_a * val_b
  let A := half (val_a >>> 32)
  let a := half val_a
  let B := half (val_b >>> 32)
  let b := half val_b
  let ab := a * b
  let Ab := A * b
  let aB := a * B
  let AB := A * B
  let c1 := half (ab >>> 32)
  let c2 := (c1 >>> 1) + (Ab >>> 1) + (aB >>> 1)
  let c2 := c2 + (((c1 &&& 1) + (Ab &&& 1) + (aB &&& 1)) >>> 1)
  let c2 := c2 >>> 31
  (AB + c2, low)

/-- `mulUnsigned`, of a compiler with `__uint128_t`. -/
def mulUnsignedWide (val_a val_b : BitVec 64) : BitVec 64 × BitVec 64 :=
  let val := val_a.setWidth 128 * val_b.setWidth 128
  ((val >>> 64).setWidth 64, val.setWidth 64)

/-- `mulUnsigned`, of a compiler with or without the type. -/
def mulUnsigned (int128 : Bool) (val_a val_b : BitVec 64) : BitVec 64 × BitVec 64 :=
  if int128 then mulUnsignedWide val_a val_b else mulUnsignedManual val_a val_b

/-- `mulSignedManual`: the unsigned product is corrected for negative operands. -/
def mulSignedManual (int128 : Bool) (val_a val_b : BitVec 64) : BitVec 64 × BitVec 64 :=
  let (u_high, u_low) := mulUnsigned int128 val_a val_b
  let u_high := if val_a.toInt < 0 then u_high - val_b else u_high
  let u_high := if val_b.toInt < 0 then u_high - val_a else u_high
  (u_high, u_low)

/-- `mulSigned`, of a compiler with `__int128_t`. -/
def mulSignedWide (val_a val_b : BitVec 64) : BitVec 64 × BitVec 64 :=
  let val := val_a.signExtend 128 * val_b.signExtend 128
  ((val.sshiftRight 64).setWidth 64, val.setWidth 64)

/-! ## The high word -/

theorem toNat_half (val : BitVec 64) : (half val).toNat = val.toNat % 2 ^ 32 := by
  unfold half
  rw [BitVec.toNat_setWidth, BitVec.toNat_setWidth]
  omega

theorem toNat_half_high (val : BitVec 64) : (half (val >>> 32)).toNat = val.toNat / 2 ^ 32 := by
  have hlt := val.isLt
  rw [toNat_half, BitVec.toNat_ushiftRight, Nat.shiftRight_eq_div_pow]
  omega

/-- The product of two halves fits in a word, with room for twice a half. -/
theorem mul_half_le {m n : ℕ} (hm : m < 2 ^ 32) (hn : n < 2 ^ 32) :
    m * n ≤ 2 ^ 64 - 2 ^ 33 + 1 := by
  calc m * n ≤ (2 ^ 32 - 1) * (2 ^ 32 - 1) := Nat.mul_le_mul (by omega) (by omega)
    _ = 2 ^ 64 - 2 ^ 33 + 1 := by norm_num

theorem toNat_mul_half {x y : BitVec 64} (hx : x.toNat < 2 ^ 32) (hy : y.toNat < 2 ^ 32) :
    (x * y).toNat = x.toNat * y.toNat := by
  have hle := mul_half_le hx hy
  rw [BitVec.toNat_mul]
  exact Nat.mod_eq_of_lt (by omega)

/-- The sum of three terms, from their halves and their lowest bits. -/
theorem halved_sum (x y z : ℕ) :
    (x / 2 + y / 2 + z / 2 + (x % 2 + y % 2 + z % 2) / 2) / 2 ^ 31 = (x + y + z) / 2 ^ 32 := by
  omega

theorem toNat_shift_one (x : BitVec 64) : (x >>> 1).toNat = x.toNat / 2 := by
  rw [BitVec.toNat_ushiftRight, Nat.shiftRight_eq_div_pow, pow_one]

theorem toNat_and_one (x : BitVec 64) : (x &&& 1).toNat = x.toNat % 2 := by
  rw [BitVec.toNat_and]
  exact Nat.and_one_is_mod x.toNat

/-- **The carry** between the place values: no bit of the three terms is lost. -/
theorem toNat_carry {c Ab aB : BitVec 64} (hc : c.toNat < 2 ^ 32)
    (hAb : Ab.toNat ≤ 2 ^ 64 - 2 ^ 33 + 1) (haB : aB.toNat ≤ 2 ^ 64 - 2 ^ 33 + 1) :
    (((c >>> 1) + (Ab >>> 1) + (aB >>> 1) +
        (((c &&& 1) + (Ab &&& 1) + (aB &&& 1)) >>> 1)) >>> 31).toNat =
      (c.toNat + Ab.toNat + aB.toNat) / 2 ^ 32 := by
  rw [BitVec.toNat_ushiftRight, Nat.shiftRight_eq_div_pow, BitVec.toNat_add, BitVec.toNat_add,
    BitVec.toNat_add, toNat_shift_one, toNat_shift_one, toNat_shift_one, toNat_shift_one,
    BitVec.toNat_add, BitVec.toNat_add, toNat_and_one, toNat_and_one, toNat_and_one, ← halved_sum]
  congr 1
  omega

/-- The high word of a product, from the products of the halves. -/
theorem high_of_halves (m n : ℕ) :
    m * n / 2 ^ 64 = m / 2 ^ 32 * (n / 2 ^ 32) +
      (m % 2 ^ 32 * (n % 2 ^ 32) / 2 ^ 32 + m / 2 ^ 32 * (n % 2 ^ 32) +
        m % 2 ^ 32 * (n / 2 ^ 32)) / 2 ^ 32 := by
  have hproduct : m * n = 2 ^ 64 * (m / 2 ^ 32 * (n / 2 ^ 32)) +
      2 ^ 32 * (m / 2 ^ 32 * (n % 2 ^ 32) + m % 2 ^ 32 * (n / 2 ^ 32)) +
      m % 2 ^ 32 * (n % 2 ^ 32) := by
    conv_lhs => rw [← Nat.div_add_mod m (2 ^ 32), ← Nat.div_add_mod n (2 ^ 32)]
    ring
  rw [hproduct]
  generalize m / 2 ^ 32 * (n / 2 ^ 32) = AB
  generalize m / 2 ^ 32 * (n % 2 ^ 32) = Ab
  generalize m % 2 ^ 32 * (n / 2 ^ 32) = aB
  generalize m % 2 ^ 32 * (n % 2 ^ 32) = ab
  omega

/-- **The words of `mulUnsignedManual`.** -/
theorem toNat_mulUnsignedManual (val_a val_b : BitVec 64) :
    (mulUnsignedManual val_a val_b).1.toNat = val_a.toNat * val_b.toNat / 2 ^ 64 ∧
    (mulUnsignedManual val_a val_b).2.toNat = val_a.toNat * val_b.toNat % 2 ^ 64 := by
  have hA : (half (val_a >>> 32)).toNat < 2 ^ 32 := by
    rw [toNat_half]
    exact Nat.mod_lt _ (by decide)
  have ha : (half val_a).toNat < 2 ^ 32 := by
    rw [toNat_half]
    exact Nat.mod_lt _ (by decide)
  have hB : (half (val_b >>> 32)).toNat < 2 ^ 32 := by
    rw [toNat_half]
    exact Nat.mod_lt _ (by decide)
  have hb : (half val_b).toNat < 2 ^ 32 := by
    rw [toNat_half]
    exact Nat.mod_lt _ (by decide)
  have hAb := toNat_mul_half hA hb
  have haB := toNat_mul_half ha hB
  have hc : (half ((half val_a * half val_b) >>> 32)).toNat < 2 ^ 32 := by
    rw [toNat_half]
    exact Nat.mod_lt _ (by decide)
  have hcarry := toNat_carry hc (hAb.trans_le (mul_half_le hA hb))
    (haB.trans_le (mul_half_le ha hB))
  have hlt : val_a.toNat * val_b.toNat / 2 ^ 64 < 2 ^ 64 := by
    refine Nat.div_lt_of_lt_mul ?_
    exact Nat.mul_lt_mul'' val_a.isLt val_b.isLt
  refine ⟨?_, BitVec.toNat_mul val_a val_b⟩
  show (half (val_a >>> 32) * half (val_b >>> 32) + _).toNat = _
  rw [BitVec.toNat_add, hcarry, toNat_mul_half hA hB, hAb, haB, toNat_half_high (half val_a * _),
    toNat_mul_half ha hb, toNat_half_high, toNat_half_high, toNat_half, toNat_half,
    ← high_of_halves]
  exact Nat.mod_eq_of_lt hlt

theorem toNat_setWidth_of_word (val : BitVec 64) : (val.setWidth 128).toNat = val.toNat := by
  have hlt := val.isLt
  rw [BitVec.toNat_setWidth]
  omega

theorem toNat_mulUnsignedWide (val_a val_b : BitVec 64) :
    (mulUnsignedWide val_a val_b).1.toNat = val_a.toNat * val_b.toNat / 2 ^ 64 ∧
    (mulUnsignedWide val_a val_b).2.toNat = val_a.toNat * val_b.toNat % 2 ^ 64 := by
  have hlt : val_a.toNat * val_b.toNat < 2 ^ 64 * 2 ^ 64 :=
    Nat.mul_lt_mul'' val_a.isLt val_b.isLt
  have hval : (val_a.setWidth 128 * val_b.setWidth 128).toNat = val_a.toNat * val_b.toNat := by
    rw [BitVec.toNat_mul, toNat_setWidth_of_word, toNat_setWidth_of_word]
    exact Nat.mod_eq_of_lt hlt
  constructor
  · show (((val_a.setWidth 128 * val_b.setWidth 128) >>> 64).setWidth 64).toNat = _
    rw [BitVec.toNat_setWidth, BitVec.toNat_ushiftRight, hval, Nat.shiftRight_eq_div_pow]
    omega
  · show ((val_a.setWidth 128 * val_b.setWidth 128).setWidth 64).toNat = _
    rw [BitVec.toNat_setWidth, hval]

/-- Both ways to multiply give the same words. -/
theorem mulUnsigned_manual (val_a val_b : BitVec 64) :
    mulUnsignedManual val_a val_b = mulUnsignedWide val_a val_b := by
  have hmanual := toNat_mulUnsignedManual val_a val_b
  have hwide := toNat_mulUnsignedWide val_a val_b
  exact Prod.ext (BitVec.eq_of_toNat_eq (hmanual.1.trans hwide.1.symm))
    (BitVec.eq_of_toNat_eq (hmanual.2.trans hwide.2.symm))

/-! ## Signed products -/

theorem toNat_mulUnsigned (int128 : Bool) (val_a val_b : BitVec 64) :
    (mulUnsigned int128 val_a val_b).1.toNat = val_a.toNat * val_b.toNat / 2 ^ 64 ∧
    (mulUnsigned int128 val_a val_b).2.toNat = val_a.toNat * val_b.toNat % 2 ^ 64 := by
  cases int128 with
  | false => exact toNat_mulUnsignedManual val_a val_b
  | true => exact toNat_mulUnsignedWide val_a val_b

/-- A word as a natural number and as an integer. -/
theorem toInt_eq_sub (val : BitVec 64) :
    val.toInt = val.toNat - 2 ^ 64 * (if val.toInt < 0 then 1 else 0) := by
  have hlt := val.isLt
  rw [BitVec.toInt_eq_toNat_cond]
  split
  · rw [if_neg (by omega)]
    omega
  · rw [if_pos (by omega)]
    omega

/-- A signed product, from the unsigned one and a correction of the high word. -/
theorem signed_product (val_a val_b : BitVec 64) :
    val_a.toInt * val_b.toInt = ((val_a.toNat * val_b.toNat : ℕ) : ℤ) +
      2 ^ 64 * (2 ^ 64 * (if val_a.toInt < 0 ∧ val_b.toInt < 0 then 1 else 0) -
        (if val_a.toInt < 0 then (val_b.toNat : ℤ) else 0) -
        (if val_b.toInt < 0 then (val_a.toNat : ℤ) else 0)) := by
  have ha := toInt_eq_sub val_a
  have hb := toInt_eq_sub val_b
  rw [Nat.cast_mul]
  by_cases hna : val_a.toInt < 0
  · by_cases hnb : val_b.toInt < 0
    · rw [if_pos hna] at ha
      rw [if_pos hnb] at hb
      rw [if_pos ⟨hna, hnb⟩, if_pos hna, if_pos hnb, ha, hb]
      ring
    · rw [if_pos hna] at ha
      rw [if_neg hnb] at hb
      rw [if_neg fun h => hnb h.2, if_pos hna, if_neg hnb, ha, hb]
      ring
  · by_cases hnb : val_b.toInt < 0
    · rw [if_neg hna] at ha
      rw [if_pos hnb] at hb
      rw [if_neg fun h => hna h.1, if_neg hna, if_pos hnb, ha, hb]
      ring
    · rw [if_neg hna] at ha
      rw [if_neg hnb] at hb
      rw [if_neg fun h => hna h.1, if_neg hna, if_neg hnb, ha, hb]
      ring

/-- A word that is congruent to an integer. -/
theorem eq_ofInt_of_emod {val : BitVec 64} {z : ℤ} (h : (val.toNat : ℤ) = z % 2 ^ 64) :
    val = BitVec.ofInt 64 z := by
  apply BitVec.eq_of_toNat_eq
  rw [BitVec.toNat_ofInt]
  omega

/-- **The words of `mulSignedManual`** are those of the signed product. -/
theorem mulSignedManual_eq (int128 : Bool) (val_a val_b : BitVec 64) :
    mulSignedManual int128 val_a val_b =
      (BitVec.ofInt 64 (val_a.toInt * val_b.toInt / 2 ^ 64),
        BitVec.ofInt 64 (val_a.toInt * val_b.toInt)) := by
  obtain ⟨hhigh, hlow⟩ := toNat_mulUnsigned int128 val_a val_b
  have hproduct := signed_product val_a val_b
  have ha := val_a.isLt
  have hb := val_b.isLt
  refine Prod.ext (eq_ofInt_of_emod ?_) (eq_ofInt_of_emod ?_)
  · unfold mulSignedManual
    generalize mulUnsigned int128 val_a val_b = u at hhigh hlow
    generalize val_a.toNat * val_b.toNat = n at hhigh hlow hproduct
    simp only
    rw [hproduct]
    by_cases hna : val_a.toInt < 0
    · by_cases hnb : val_b.toInt < 0
      · rw [if_pos hna, if_pos hnb, if_pos ⟨hna, hnb⟩, if_pos hna, if_pos hnb, BitVec.toNat_sub,
          BitVec.toNat_sub, hhigh]
        omega
      · rw [if_pos hna, if_neg hnb, if_neg fun h => hnb h.2, if_pos hna, if_neg hnb,
          BitVec.toNat_sub, hhigh]
        omega
    · by_cases hnb : val_b.toInt < 0
      · rw [if_neg hna, if_pos hnb, if_neg fun h => hna h.1, if_neg hna, if_pos hnb,
          BitVec.toNat_sub, hhigh]
        omega
      · rw [if_neg hna, if_neg hnb, if_neg fun h => hna h.1, if_neg hna, if_neg hnb, hhigh]
        omega
  · show ((mulUnsigned int128 val_a val_b).2.toNat : ℤ) = _
    rw [hlow, hproduct]
    omega

/-- The same words come from a product of 128 bits. -/
theorem mulSignedWide_eq (val_a val_b : BitVec 64) :
    mulSignedWide val_a val_b =
      (BitVec.ofInt 64 (val_a.toInt * val_b.toInt / 2 ^ 64),
        BitVec.ofInt 64 (val_a.toInt * val_b.toInt)) := by
  have hval : val_a.signExtend 128 * val_b.signExtend 128 =
      BitVec.ofInt 128 (val_a.toInt * val_b.toInt) := by
    apply BitVec.eq_of_toInt_eq
    rw [BitVec.toInt_mul, BitVec.toInt_signExtend_of_le (by decide),
      BitVec.toInt_signExtend_of_le (by decide), BitVec.toInt_ofInt]
  have hnat : ((val_a.signExtend 128 * val_b.signExtend 128).toNat : ℤ) =
      val_a.toInt * val_b.toInt % 2 ^ 128 := by
    rw [hval, BitVec.toNat_ofInt]
    omega
  have hint : (val_a.signExtend 128 * val_b.signExtend 128).toInt % 2 ^ 128 =
      val_a.toInt * val_b.toInt % 2 ^ 128 := by
    rw [hval, BitVec.toInt_ofInt]
    exact Int.bmod_emod
  refine Prod.ext (eq_ofInt_of_emod ?_) (eq_ofInt_of_emod ?_)
  · show ((((val_a.signExtend 128 * val_b.signExtend 128).sshiftRight 64).setWidth 64).toNat :
      ℤ) = _
    rw [BitVec.toNat_setWidth, BitVec.sshiftRight_eq, BitVec.toNat_ofInt,
      Int.shiftRight_eq_div_pow]
    omega
  · show (((val_a.signExtend 128 * val_b.signExtend 128).setWidth 64).toNat : ℤ) = _
    rw [BitVec.toNat_setWidth]
    omega

/-- Both ways to multiply give the same words. -/
theorem mulSigned_manual (int128 : Bool) (val_a val_b : BitVec 64) :
    mulSignedManual int128 val_a val_b = mulSignedWide val_a val_b :=
  (mulSignedManual_eq int128 val_a val_b).trans (mulSignedWide_eq val_a val_b).symm

/-- The product of two signed words has 127 bits. -/
theorem signed_product_bounds (val_a val_b : BitVec 64) :
    -2 ^ 126 ≤ val_a.toInt * val_b.toInt ∧ val_a.toInt * val_b.toInt ≤ 2 ^ 126 := by
  have ha : |val_a.toInt| ≤ 2 ^ 63 := by
    have hlow := BitVec.le_toInt val_a
    have hhigh := BitVec.toInt_lt (x := val_a)
    rw [abs_le]
    omega
  have hb : |val_b.toInt| ≤ 2 ^ 63 := by
    have hlow := BitVec.le_toInt val_b
    have hhigh := BitVec.toInt_lt (x := val_b)
    rw [abs_le]
    omega
  rw [← abs_le, abs_mul]
  calc |val_a.toInt| * |val_b.toInt| ≤ 2 ^ 63 * 2 ^ 63 :=
        mul_le_mul ha hb (abs_nonneg _) (by norm_num)
    _ = 2 ^ 126 := by norm_num

/-- **The manual multiplications are exact**: the high and the low word are those of the product of
the natural numbers and of the product of the integers, and they are the words that a compiler with
128-bit types computes. -/
theorem wide_products_exact (int128 : Bool) (val_a val_b : BitVec 64) :
    (mulUnsignedManual val_a val_b).1.toNat * 2 ^ 64 + (mulUnsignedManual val_a val_b).2.toNat =
      val_a.toNat * val_b.toNat ∧
    (mulSignedManual int128 val_a val_b).1.toInt * 2 ^ 64 +
      (mulSignedManual int128 val_a val_b).2.toNat = val_a.toInt * val_b.toInt ∧
    mulUnsignedManual val_a val_b = mulUnsignedWide val_a val_b ∧
    mulSignedManual int128 val_a val_b = mulSignedWide val_a val_b := by
  refine ⟨?_, ?_, mulUnsigned_manual val_a val_b, mulSigned_manual int128 val_a val_b⟩
  · obtain ⟨hhigh, hlow⟩ := toNat_mulUnsignedManual val_a val_b
    rw [hhigh, hlow]
    exact Nat.div_add_mod' _ _
  · obtain ⟨hmin, hmax⟩ := signed_product_bounds val_a val_b
    have hfits : -2 ^ 63 ≤ val_a.toInt * val_b.toInt / 2 ^ 64 ∧
        val_a.toInt * val_b.toInt / 2 ^ 64 < 2 ^ 63 := by
      omega
    rw [mulSignedManual_eq, BitVec.toInt_ofInt, BitVec.toNat_ofInt,
      Int.bmod_eq_of_le (by omega) (by omega)]
    omega

/-- The square of the least number. -/
example : mulSignedManual false (BitVec.ofInt 64 (-2 ^ 63)) (BitVec.ofInt 64 (-2 ^ 63)) =
    (BitVec.ofNat 64 (2 ^ 62), 0) := by decide

end Gem5.Base
