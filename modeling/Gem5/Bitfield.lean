/-
# Bit fields of addresses

The functions of `base/bitfield.hh` that the address code uses, on 64-bit words, and
what they do to the single bits.  Positions are `unsigned` in the source: `first + 1`
is a 32-bit sum.
-/
import Mathlib

namespace Gem5.Base

/-- `Addr` -/
abbrev Addr := BitVec 64

/-! ## The functions -/

/-- `mask(nbits)` -/
def mask (nbits : ℕ) : Addr := if 64 ≤ nbits then BitVec.allOnes 64 else (1#64 <<< nbits) - 1#64

/-- `mask(first, last)`, by way of `mbits`. -/
def maskBetween (first last : BitVec 32) : Addr :=
  BitVec.allOnes 64 &&& (mask (first + 1).toNat &&& ~~~(mask last.toNat))

/-- `bits(val, first, last)` -/
def bits (val : Addr) (first last : ℕ) : Addr := (val >>> last) &&& mask (first - last + 1)

/-- `mbits(val, first, last)` -/
def mbits (val : Addr) (first last : ℕ) : Addr := val &&& (mask (first + 1) &&& ~~~(mask last))

/-- `insertBits(val, first, last, bit_val)` -/
def insertBits (val : Addr) (first last : BitVec 32) (bitVal : Addr) : Addr :=
  let bmask := maskBetween first last
  (val &&& ~~~bmask) ||| ((bitVal <<< last.toNat) &&& bmask)

/-- `popCount(val)` -/
def popCount (val : Addr) : ℕ := ((Finset.range 64).filter fun i => val.getLsbD i = true).card

/-- `ctz64(value)`: 64 for a value that is zero. -/
def ctz64 (value : Addr) : ℕ := (List.range 64).findIdx fun i => value.getLsbD i

/-- `val |= val >> n` -/
def orShift (n : ℕ) (val : Addr) : Addr := val ||| val >>> n

/-- `alignToPowerOfTwo(val)` -/
def alignToPowerOfTwo (val : Addr) : Addr :=
  orShift 32 (orShift 16 (orShift 8 (orShift 4 (orShift 2 (orShift 1 (val - 1)))))) + 1

/-! ## Single bits -/

section SingleBits

variable {w i : ℕ}

theorem getLsbD_bit (hi : i < w) (j : ℕ) : (1#w <<< i).getLsbD j = decide (j = i) := by
  rw [BitVec.getLsbD_shiftLeft, BitVec.getLsbD_one]
  by_cases hji : j = i
  · subst hji
    simp [hi]
    omega
  · have hne : ¬ (i ≤ j ∧ j - i = 0) := by omega
    simp only [hji, decide_false]
    by_contra h
    simp at h
    omega

/-- The test of one bit. -/
theorem and_bit_ne_zero {v : BitVec w} (hi : i < w) :
    (1#w <<< i) &&& v ≠ 0 ↔ v.getLsbD i = true := by
  constructor
  · intro hne
    by_contra hbit
    apply hne
    apply BitVec.eq_of_getLsbD_eq
    intro j _
    rw [BitVec.getLsbD_and, getLsbD_bit hi]
    by_cases hji : j = i
    · subst hji
      simpa using hbit
    · simp [hji]
  · intro hbit hzero
    have hone : ((1#w <<< i) &&& v).getLsbD i = true := by
      rw [BitVec.getLsbD_and, getLsbD_bit hi, hbit]
      simp
    rw [hzero] at hone
    simp at hone

theorem getLsbD_clearBit {v : BitVec w} (hi : i < w) (j : ℕ) :
    (v &&& ~~~(1#w <<< i)).getLsbD j = (v.getLsbD j && decide (j ≠ i)) := by
  rw [BitVec.getLsbD_and, BitVec.getLsbD_not, getLsbD_bit hi]
  by_cases hj : j < w
  · simp [hj]
  · simp [BitVec.getLsbD_of_ge v j (not_lt.mp hj)]

theorem getLsbD_setBit {v : BitVec w} (hi : i < w) (j : ℕ) :
    (v ||| 1#w <<< i).getLsbD j = (v.getLsbD j || decide (j = i)) := by
  rw [BitVec.getLsbD_or, getLsbD_bit hi]

end SingleBits

/-! ## Bits -/

theorem getLsbD_mask (n k : ℕ) : (mask n).getLsbD k = (decide (k < n) && decide (k < 64)) := by
  unfold mask
  split
  · rename_i hn
    rw [BitVec.getLsbD_allOnes]
    by_cases hk : k < 64
    · simp [hk, Nat.lt_of_lt_of_le hk hn]
    · simp [hk]
  · rename_i hn
    have hn' : n < 64 := Nat.lt_of_not_le hn
    have htoNat : ((1#64 <<< n) - 1#64).toNat = 2 ^ n - 1 := by
      have hlt : 2 ^ n < 2 ^ 64 := Nat.pow_lt_pow_right (by decide) hn'
      have hpos : 0 < 2 ^ n := Nat.two_pow_pos n
      have hshift : (1#64 <<< n).toNat = 2 ^ n := by
        rw [BitVec.toNat_shiftLeft, Nat.shiftLeft_eq]
        simp only [BitVec.toNat_ofNat]
        omega
      rw [BitVec.toNat_sub, hshift]
      simp only [BitVec.toNat_ofNat]
      omega
    rw [BitVec.getLsbD, htoNat, Nat.testBit_two_pow_sub_one]
    by_cases hk : k < n
    · simp [hk, hk.trans hn']
    · simp [hk]

theorem getLsbD_bits (val : Addr) (first last k : ℕ) :
    (bits val first last).getLsbD k =
      (val.getLsbD (last + k) && decide (k < first - last + 1)) := by
  unfold bits
  rw [BitVec.getLsbD_and, BitVec.getLsbD_ushiftRight, getLsbD_mask]
  by_cases hk : k < 64
  · rw [decide_eq_true hk, Bool.and_true]
  · rw [BitVec.getLsbD_of_ge val (last + k) (by omega), Bool.false_and, Bool.false_and]

theorem getLsbD_mbits_low (val : Addr) (first k : ℕ) :
    (mbits val first 0).getLsbD k = (val.getLsbD k && decide (k < first + 1)) := by
  unfold mbits
  rw [BitVec.getLsbD_and, BitVec.getLsbD_and, BitVec.getLsbD_not, getLsbD_mask, getLsbD_mask]
  by_cases hk : k < 64
  · simp [hk]
  · rw [BitVec.getLsbD_of_ge val k (by omega), Bool.false_and, Bool.false_and]

/-- Inserting the low bits of another word. -/
theorem getLsbD_insertBits_low {val bitVal : Addr} {first : BitVec 32} {p k : ℕ}
    (hp : (first + 1).toNat = p) (hk : k < 64) :
    (insertBits val first 0 bitVal).getLsbD k =
      if k < p then bitVal.getLsbD k else val.getLsbD k := by
  have hzero : (0 : BitVec 32).toNat = 0 := rfl
  unfold insertBits maskBetween
  simp only [hp, hzero, BitVec.getLsbD_or, BitVec.getLsbD_and, BitVec.getLsbD_not,
    BitVec.getLsbD_allOnes, getLsbD_mask, BitVec.getLsbD_shiftLeft, hk]
  by_cases hkp : k < p
  · simp [hkp]
  · simp [hkp]

/-- Inserting one bit. -/
theorem getLsbD_insertBits_one {val bitVal : Addr} {bit k : ℕ} (hbit : bit < 64) (hk : k < 64) :
    (insertBits val (BitVec.ofNat 32 bit) (BitVec.ofNat 32 bit) bitVal).getLsbD k =
      if k = bit then bitVal.getLsbD 0 else val.getLsbD k := by
  have hlast : (BitVec.ofNat 32 bit).toNat = bit := by
    rw [BitVec.toNat_ofNat]
    omega
  have hfirst : (BitVec.ofNat 32 bit + 1).toNat = bit + 1 := by
    rw [BitVec.toNat_add, hlast]
    simp
    omega
  unfold insertBits maskBetween
  simp only [hlast, hfirst, BitVec.getLsbD_or, BitVec.getLsbD_and, BitVec.getLsbD_not,
    BitVec.getLsbD_allOnes, getLsbD_mask, BitVec.getLsbD_shiftLeft, hk]
  rcases Nat.lt_trichotomy k bit with h | h | h
  · simp [h, h.ne, Nat.lt_succ_of_lt h]
  · subst h
    simp
  · have h1 : ¬k < bit := by omega
    have h2 : ¬k < bit + 1 := by omega
    simp [h1, h2, h.ne']

/-! ## The lowest bit of a word -/

theorem ctz64_lt {m : Addr} (hm : m ≠ 0) : ctz64 m < 64 := by
  unfold ctz64
  have hex : ∃ i ∈ List.range 64, m.getLsbD i = true := by
    by_contra hnone
    push Not at hnone
    apply hm
    apply BitVec.eq_of_getLsbD_eq
    intro i hi
    rw [Bool.eq_false_of_not_eq_true (hnone i (List.mem_range.mpr hi))]
    exact BitVec.getLsbD_zero.symm
  have hlt := List.findIdx_lt_length.mpr hex
  rwa [List.length_range] at hlt

theorem getLsbD_ctz64 {m : Addr} (hm : m ≠ 0) : m.getLsbD (ctz64 m) = true := by
  have hlt : (List.range 64).findIdx (fun i => m.getLsbD i) < (List.range 64).length := by
    rw [List.length_range]
    exact ctz64_lt hm
  have hget := List.findIdx_getElem (w := hlt)
  rw [List.getElem_range] at hget
  exact hget

/-- Below the lowest bit there is none. -/
theorem ctz64_le_of_getLsbD {m : Addr} {k : ℕ} (hk : m.getLsbD k = true) : ctz64 m ≤ k := by
  by_contra hlt
  have hnot := List.not_of_lt_findIdx (Nat.lt_of_not_le hlt)
  rw [List.getElem_range, hk] at hnot
  cases hnot

/-! ## Rounding up to a power of two -/

/-- Bit `i` of `w` is set if one of the `n` bits of `v` from `i` on is. -/
def Smeared (n : ℕ) (v w : Addr) : Prop :=
  ∀ i, w.getLsbD i = true ↔ ∃ j, j < n ∧ v.getLsbD (i + j) = true

theorem Smeared.double {n : ℕ} {v w : Addr} (h : Smeared n v w) :
    Smeared (n + n) v (orShift n w) := by
  intro i
  unfold orShift
  rw [BitVec.getLsbD_or, BitVec.getLsbD_ushiftRight, Bool.or_eq_true, h i, h (n + i)]
  constructor
  · rintro (⟨j, hj, hbit⟩ | ⟨j, hj, hbit⟩)
    · exact ⟨j, by omega, hbit⟩
    · exact ⟨n + j, by omega, by rwa [← Nat.add_assoc, Nat.add_comm i n]⟩
  · rintro ⟨j, hj, hbit⟩
    by_cases hjn : j < n
    · exact .inl ⟨j, hjn, hbit⟩
    · refine .inr ⟨j - n, by omega, ?_⟩
      rwa [show n + i + (j - n) = i + j by omega]

/-- All bits below the highest one of `v` set. -/
theorem Smeared.toNat {v w : Addr} (h : Smeared 64 v w) (hv : v.toNat ≠ 0) :
    w.toNat = 2 ^ (Nat.log2 v.toNat + 1) - 1 := by
  apply Nat.eq_of_testBit_eq
  intro i
  rw [Nat.testBit_two_pow_sub_one]
  have hbits : ∀ k, v.getLsbD k = true → k ≤ Nat.log2 v.toNat := fun k hk =>
    (Nat.le_log2 hv).mpr (Nat.ge_two_pow_of_testBit hk)
  have htop : v.getLsbD (Nat.log2 v.toNat) = true := Nat.testBit_log2 hv
  have hlt : Nat.log2 v.toNat < 64 := (Nat.log2_lt hv).mpr v.isLt
  rw [Bool.eq_iff_iff, decide_eq_true_eq]
  refine (h i).trans ⟨?_, ?_⟩
  · rintro ⟨j, _, hbit⟩
    have := hbits _ hbit
    omega
  · intro hi
    exact ⟨Nat.log2 v.toNat - i, by omega, by rwa [Nat.add_sub_cancel' (by omega)]⟩

/-- `alignToPowerOfTwo` gives the least power of two that is not smaller. -/
theorem toNat_alignToPowerOfTwo {val : Addr} (hpos : 1 ≤ val.toNat) (hle : val.toNat ≤ 2 ^ 63) :
    ∃ k, (alignToPowerOfTwo val).toNat = 2 ^ k ∧ val.toNat ≤ 2 ^ k ∧ 2 ^ k < 2 * val.toNat := by
  have hpred : (val - 1).toNat = val.toNat - 1 := by
    rw [BitVec.toNat_sub_of_le (by rw [BitVec.le_def]; exact hpos)]
    rfl
  have hone : Smeared 1 (val - 1) (val - 1) := by
    intro i
    constructor
    · exact fun hbit => ⟨0, Nat.one_pos, hbit⟩
    · rintro ⟨j, hj, hbit⟩
      obtain rfl : j = 0 := by omega
      exact hbit
  have hsmear : Smeared 64 (val - 1) (orShift 32 (orShift 16 (orShift 8 (orShift 4 (orShift 2
      (orShift 1 (val - 1))))))) := hone.double.double.double.double.double.double
  by_cases hv : (val - 1).toNat = 0
  · have hval : val = 1 := by
      apply BitVec.eq_of_toNat_eq
      change val.toNat = 1
      omega
    refine ⟨0, ?_, ?_, ?_⟩
    · rw [hval]
      rfl
    · rw [hval]
      decide
    · rw [hval]
      decide
  · have hfull := hsmear.toNat hv
    rw [hpred] at hv hfull
    have hlow := Nat.log2_self_le hv
    have hhigh := Nat.lt_log2_self (n := val.toNat - 1)
    have hbound : 2 ^ (Nat.log2 (val.toNat - 1) + 1) < 2 ^ 64 := by
      rw [Nat.pow_succ]
      omega
    refine ⟨Nat.log2 (val.toNat - 1) + 1, ?_, by omega, ?_⟩
    · have hpow := Nat.two_pow_pos (Nat.log2 (val.toNat - 1) + 1)
      unfold alignToPowerOfTwo
      rw [BitVec.toNat_add]
      change ((orShift 32 _).toNat + 1) % 2 ^ 64 = _
      rw [hfull, Nat.sub_add_cancel hpow, Nat.mod_eq_of_lt hbound]
    · rw [Nat.pow_succ]
      omega

/-! ## Parity -/

/-- The set of positions of the bits that are set. -/
def bitSet (v : Addr) : Finset ℕ := (Finset.range 64).filter fun i => v.getLsbD i = true

theorem mem_bitSet {v : Addr} {i : ℕ} : i ∈ bitSet v ↔ v.getLsbD i = true := by
  unfold bitSet
  rw [Finset.mem_filter, Finset.mem_range]
  refine and_iff_right_of_imp fun h => ?_
  exact BitVec.lt_of_getLsbD h

/-- `popCount(val) % 2`: the exclusive or of the bits. -/
def parity (v : Addr) : Bool := popCount v % 2 = 1

theorem parity_congr {v w : Addr} (h : ∀ i < 64, v.getLsbD i = w.getLsbD i) : parity v = parity w := by
  rw [BitVec.eq_of_getLsbD_eq h]

/-- Parity with one bit taken apart. -/
theorem parity_split {v w : Addr} {p : ℕ} (hp : p < 64) (hw : w.getLsbD p = false)
    (h : ∀ i < 64, i ≠ p → v.getLsbD i = w.getLsbD i) :
    parity v = (v.getLsbD p ^^ parity w) := by
  have hset : bitSet w = (bitSet v).erase p := by
    ext i
    rw [Finset.mem_erase, mem_bitSet, mem_bitSet]
    by_cases hi : i = p
    · subst hi
      simp [hw]
    · by_cases hi64 : i < 64
      · rw [h i hi64 hi]
        simp [hi]
      · rw [BitVec.getLsbD_of_ge _ _ (Nat.le_of_not_lt hi64),
          BitVec.getLsbD_of_ge _ _ (Nat.le_of_not_lt hi64)]
        simp
  have hw' : popCount w = ((bitSet v).erase p).card := by
    rw [← hset]
    rfl
  have hv' : popCount v = (bitSet v).card := rfl
  unfold parity
  rw [hw', hv']
  by_cases hvp : v.getLsbD p = true
  · have hcard := Finset.card_erase_add_one (mem_bitSet.mpr hvp)
    rw [hvp, ← hcard]
    rcases Nat.mod_two_eq_zero_or_one ((bitSet v).erase p).card with hmod | hmod
    · simp [Nat.add_mod, hmod]
    · simp [Nat.add_mod, hmod]
  · have hnot : p ∉ bitSet v := fun hmem => hvp (mem_bitSet.mp hmem)
    rw [Finset.erase_eq_of_notMem hnot, Bool.eq_false_of_not_eq_true hvp, Bool.false_xor]

end Gem5.Base
