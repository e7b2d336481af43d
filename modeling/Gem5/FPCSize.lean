/-
# The size of a line compressed by FPC

Every word of a line has the size of its pattern, and a run of zero words that of its entries.  We
compare this with the documented classes of words: the smallest payload of a class that the word
belongs to, and one entry for every `2 ^ z` words of a maximal run of zeros.

The two differ on words of two sign-extended halfwords one of which is negative: the class test
compares a signed halfword with an unsigned one.
-/
import Gem5.Compressors

namespace Gem5.Compression.FPC

open Gem5.Base Runs PatternNumber

variable {size : ℕ}

/-! ## The documented classes -/

/-- The word is the sign extension of its low `n` bits. -/
def SignExtends {w : ℕ} (n : ℕ) (v : BitVec w) : Prop := (v.setWidth n).signExtend w = v

/-- The low halfword is zero. -/
def ZeroPadded (v : BitVec 32) : Prop := v.setWidth 16 = 0#16

/-- Each halfword is the sign extension of its low byte. -/
def TwoHalfwords (v : BitVec 32) : Prop :=
  SignExtends 8 (halfword v 0) ∧ SignExtends 8 (halfword v 1)

/-- The four bytes are the same. -/
def RepeatedBytes (v : BitVec 32) : Prop :=
  v = v.setWidth 8 ++ v.setWidth 8 ++ v.setWidth 8 ++ v.setWidth 8

instance {w n : ℕ} (v : BitVec w) : Decidable (SignExtends n v) :=
  inferInstanceAs (Decidable (_ = _))

instance (v : BitVec 32) : Decidable (ZeroPadded v) := inferInstanceAs (Decidable (_ = _))

instance (v : BitVec 32) : Decidable (TwoHalfwords v) := inferInstanceAs (Decidable (_ ∧ _))

instance (v : BitVec 32) : Decidable (RepeatedBytes v) := inferInstanceAs (Decidable (_ = _))

/-- The classes of words, with their payloads in bits. -/
def classes : List ((BitVec 32 → Bool) × ℕ) :=
  [(fun v => SignExtends 4 v, 4), (fun v => SignExtends 8 v, 8), (fun v => SignExtends 16 v, 16),
    (fun v => ZeroPadded v, 16), (fun v => TwoHalfwords v, 16), (fun v => RepeatedBytes v, 8),
    (fun _ => true, 32)]

/-- The smallest payload among the classes that a word belongs to. -/
def documentedPayload (v : BitVec 32) : ℕ :=
  ((classes.filter fun c => c.1 v).map Prod.snd).foldl min 32

/-- The size of a run of zero words. -/
def runSize (z run : ℕ) : ℕ := (3 + z) * (run ⌈/⌉ 2 ^ z)

/-- The size that the classes promise: that of the words that are not zero, and that of the maximal
runs of zeros between them. -/
def documentedSize (z : ℕ) (chunks : List (BitVec 32)) : ℕ :=
  ((chunks.filter (· ≠ 0#32)).map fun v => 3 + documentedPayload v).sum +
    ((chunks.splitOnP (· ≠ 0#32)).map fun run => runSize z run.length).sum

/-- The bits above the low ones are copies of the highest of these. -/
theorem signExtends_iff_bits {w n : ℕ} (hn : 0 < n) (v : BitVec w) :
    SignExtends n v ↔ ∀ i < w, n ≤ i → v.getLsbD i = v.getLsbD (n - 1) := by
  have hbit : ∀ i < w, ((v.setWidth n).signExtend w).getLsbD i =
      if i < n then v.getLsbD i else v.getLsbD (n - 1) := by
    intro i hi
    have hmsb : (v.setWidth n).msb = v.getLsbD (n - 1) := by
      rw [BitVec.msb_eq_getLsbD_last, BitVec.getLsbD_setWidth, decide_eq_true (by omega),
        Bool.true_and]
    rw [BitVec.getLsbD_signExtend, hmsb, BitVec.getLsbD_setWidth]
    by_cases hlt : i < n <;> simp [hi, hlt]
  unfold SignExtends
  constructor
  · intro h i hi hni
    have hext := hbit i hi
    rw [h, if_neg (by omega)] at hext
    exact hext
  · intro h
    refine BitVec.eq_of_getLsbD_eq fun i hi => ?_
    rw [hbit i hi]
    split_ifs with hlt
    · rfl
    · exact (h i hi (by omega)).symm

theorem SignExtends.mono {w n m : ℕ} {v : BitVec w} (h : SignExtends n v) (hn : 0 < n)
    (hnm : n ≤ m) : SignExtends m v := by
  rw [signExtends_iff_bits hn] at h
  rw [signExtends_iff_bits (by omega)]
  intro i hi hmi
  rw [h i hi (by omega)]
  by_cases heq : n = m
  · rw [heq]
  · exact (h (m - 1) (by omega) (by omega)).symm

/-! ## The tests of the classes -/

theorem szext_eq {n : ℕ} (hn : 0 < n) (hn' : n ≤ 64) (val : Addr) :
    szext n val = (val.setWidth n).signExtend 64 := by
  refine BitVec.eq_of_getLsbD_eq fun i hi => ?_
  have hmsb : (val.setWidth n).msb = val.getLsbD (n - 1) := by
    rw [BitVec.msb_eq_getLsbD_last, BitVec.getLsbD_setWidth, decide_eq_true (by omega), Bool.true_and]
  rw [BitVec.getLsbD_signExtend, hmsb, BitVec.getLsbD_setWidth]
  unfold szext
  by_cases hbit : val.getLsbD (n - 1) = true
  · rw [if_pos hbit, BitVec.getLsbD_or, BitVec.getLsbD_not, getLsbD_mask]
    by_cases hlt : i < n <;> simp [hi, hlt, hbit]
  · rw [if_neg hbit, BitVec.getLsbD_and, getLsbD_mask]
    by_cases hlt : i < n <;> simp [hi, hlt, hbit]

theorem setWidth_szext {w n : ℕ} (hn : 0 < n) (hnw : n ≤ w) (hw : w ≤ 64) (val : Addr) :
    (szext n val).setWidth w = (val.setWidth n).signExtend w := by
  rw [szext_eq hn (by omega)]
  refine BitVec.eq_of_getLsbD_eq fun i hi => ?_
  have hi' : i < 64 := by omega
  rw [BitVec.getLsbD_setWidth, BitVec.getLsbD_signExtend, BitVec.getLsbD_signExtend]
  simp [hi, hi']

theorem signExtended_iff {n : ℕ} (hn : 0 < n) (hn' : n ≤ 32) (v dict : BitVec 32) (loc : ℤ) :
    SignExtendedPattern.isPattern n v dict loc = true ↔ SignExtends n v := by
  unfold SignExtendedPattern.isPattern SignExtends
  have hnarrow : (v.setWidth 64).setWidth n = v.setWidth n :=
    BitVec.setWidth_setWidth_of_le v (by omega)
  rw [beq_iff_eq, setWidth_szext hn hn' (by decide), hnarrow, eq_comm]

theorem toNat_and_low (v : BitVec 32) : (v &&& 0x0000FFFF#32).toNat = v.toNat % 2 ^ 16 := by
  rw [BitVec.toNat_and]
  exact Nat.and_two_pow_sub_one_eq_mod v.toNat 16

theorem zeroPadded_iff (v dict : BitVec 32) (loc : ℤ) :
    MaskedValuePattern.isPattern 0#32 0x0000FFFF#32 v dict loc = true ↔ ZeroPadded v := by
  unfold MaskedValuePattern.isPattern ZeroPadded
  rw [beq_iff_eq, eq_comm, BitVec.toNat_eq, toNat_and_low, toNat_and_low, BitVec.toNat_eq,
    BitVec.toNat_setWidth]
  exact Iff.rfl

/-- The four bytes are the same when the bits are. -/
theorem repeatedBytes_iff_bits (v : BitVec 32) :
    RepeatedBytes v ↔ ∀ i < 32, v.getLsbD i = v.getLsbD (i % 8) := by
  have hbit : ∀ i < 32, (v.setWidth 8 ++ v.setWidth 8 ++ v.setWidth 8 ++ v.setWidth 8).getLsbD i =
      v.getLsbD (i % 8) := by
    intro i hi
    rw [BitVec.getLsbD_append, BitVec.getLsbD_append, BitVec.getLsbD_append]
    split_ifs <;> rw [BitVec.getLsbD_setWidth, decide_eq_true (by omega), Bool.true_and] <;>
      congr 1 <;> omega
  unfold RepeatedBytes
  constructor
  · intro h i hi
    rw [← hbit i hi, ← h]
  · intro h
    refine BitVec.eq_of_getLsbD_eq fun i hi => ?_
    rw [h i hi, hbit i hi]

theorem repeatedBytes_iff (v dict : BitVec 32) (loc : ℤ) :
    RepeatedValuePattern.isPattern 8 v dict loc = true ↔ RepeatedBytes v := by
  unfold RepeatedValuePattern.isPattern
  rw [repeatedBytes_iff_bits, List.all_eq_true]
  constructor
  · intro h i hi
    have hbyte := h (i / 8) (List.mem_range.mpr (by omega))
    rw [beq_iff_eq] at hbyte
    have hbit := congrArg (fun b => b.getLsbD (i % 8)) hbyte
    simp only [BitVec.getLsbD_setWidth, BitVec.getLsbD_ushiftRight] at hbit
    rw [decide_eq_true (by omega), Bool.true_and, Bool.true_and, Nat.div_add_mod] at hbit
    exact hbit
  · intro h k hk
    rw [List.mem_range] at hk
    rw [beq_iff_eq]
    refine BitVec.eq_of_getLsbD_eq fun j hj => ?_
    rw [BitVec.getLsbD_setWidth, BitVec.getLsbD_setWidth, BitVec.getLsbD_ushiftRight,
      h (8 * k + j) (by omega)]
    congr 2
    omega

/-- The comparison of a signed with an unsigned halfword leaves the negative ones out. -/
theorem halfwordMatches_iff (h : BitVec 16) :
    halfwordMatches h = true ↔ SignExtends 8 h ∧ h.msb = false := by
  unfold halfwordMatches SignExtends
  have hnarrow : (h.signExtend 64).setWidth 8 = h.setWidth 8 := by
    refine BitVec.eq_of_getLsbD_eq fun i hi => ?_
    rw [BitVec.getLsbD_setWidth, BitVec.getLsbD_setWidth, BitVec.getLsbD_signExtend]
    simp [hi, show i < 64 by omega, show i < 16 by omega]
  rw [beq_iff_eq, setWidth_szext (by decide) (by decide) (by decide), hnarrow,
    BitVec.toInt_eq_msb_cond]
  have hlt := h.isLt
  by_cases hmsb : h.msb = true
  · rw [if_pos hmsb, hmsb]
    simp only [Bool.true_eq_false, and_false, iff_false]
    omega
  · rw [if_neg hmsb, Int.natCast_inj, ← BitVec.toNat_eq]
    simp [hmsb, eq_comm]

theorem twoHalfwords_iff (v dict : BitVec 32) (loc : ℤ) :
    signExtendedTwoHalfwords.isPattern v dict loc = true ↔
      TwoHalfwords v ∧ (halfword v 0).msb = false ∧ (halfword v 1).msb = false := by
  change (halfwordMatches (halfword v 0) && halfwordMatches (halfword v 1)) = true ↔ _
  rw [Bool.and_eq_true, halfwordMatches_iff, halfwordMatches_iff]
  unfold TwoHalfwords
  tauto

/-! ## The payload of a word -/

/-- The payload of the pattern that `getPattern` chooses for a word that is not zero. -/
def payload (v : BitVec 32) : ℕ :=
  if SignExtends 4 v then 4 else if SignExtends 8 v then 8 else if SignExtends 16 v then 16
  else if ZeroPadded v then 16
  else if TwoHalfwords v ∧ (halfword v 0).msb = false ∧ (halfword v 1).msb = false then 16
  else if RepeatedBytes v then 8 else 32

theorem zeroRun_isPattern (v dict : BitVec 32) (loc : ℤ) :
    zeroRun.isPattern v dict loc = true ↔ v = 0#32 := by
  change (0#32 &&& 0xFFFFFFFF#32 == v &&& 0xFFFFFFFF#32) = true ↔ _
  rw [beq_iff_eq, show (0xFFFFFFFF#32 : BitVec 32) = BitVec.allOnes 32 from rfl, BitVec.and_allOnes,
    BitVec.and_allOnes, eq_comm]

/-- The pattern of a word. -/
def patternOf (v : BitVec 32) : Pattern PatternNumber 32 :=
  getPattern [zeroRun, signExtended4Bits, signExtended1Byte, signExtendedHalfword,
    zeroPaddedHalfword, signExtendedTwoHalfwords, repBytes] uncompressed v 0#32 (-1)

theorem patternOf_zero : patternOf 0#32 = zeroRun.new 0#32 (-1) := by
  unfold patternOf
  rw [getPattern_cons, if_pos ((zeroRun_isPattern _ _ _).mpr rfl)]

/-- The pattern of a word that is not zero, by the tests of the classes. -/
theorem patternOf_eq {v : BitVec 32} (hv : v ≠ 0#32) :
    patternOf v =
      if SignExtends 4 v then signExtended4Bits.new v (-1)
      else if SignExtends 8 v then signExtended1Byte.new v (-1)
      else if SignExtends 16 v then signExtendedHalfword.new v (-1)
      else if ZeroPadded v then zeroPaddedHalfword.new v (-1)
      else if TwoHalfwords v ∧ (halfword v 0).msb = false ∧ (halfword v 1).msb = false then
        signExtendedTwoHalfwords.new v (-1)
      else if RepeatedBytes v then repBytes.new v (-1) else uncompressed.new v (-1) := by
  have hzero : ¬ zeroRun.isPattern v 0#32 (-1) = true := by
    rw [zeroRun_isPattern]
    exact hv
  have h4 : signExtended4Bits.isPattern v 0#32 (-1) = true ↔ SignExtends 4 v :=
    signExtended_iff (by decide) (by decide) v 0#32 (-1)
  have h8 : signExtended1Byte.isPattern v 0#32 (-1) = true ↔ SignExtends 8 v :=
    signExtended_iff (by decide) (by decide) v 0#32 (-1)
  have h16 : signExtendedHalfword.isPattern v 0#32 (-1) = true ↔ SignExtends 16 v :=
    signExtended_iff (by decide) (by decide) v 0#32 (-1)
  have hpadded : zeroPaddedHalfword.isPattern v 0#32 (-1) = true ↔ ZeroPadded v :=
    zeroPadded_iff v 0#32 (-1)
  have hrep : repBytes.isPattern v 0#32 (-1) = true ↔ RepeatedBytes v := repeatedBytes_iff v 0#32 (-1)
  unfold patternOf
  rw [getPattern_cons, if_neg hzero]
  simp only [getPattern_cons, h4, h8, h16, hpadded, twoHalfwords_iff, hrep]
  rfl

/-- A word that is not zero has the size of its payload and of the prefix, and starts no run. -/
theorem patternOf_ne_zero {v : BitVec 32} (hv : v ≠ 0#32) :
    (patternOf v).patternNumber ≠ ZERO_RUN ∧ (patternOf v).getSizeBits = 3 + payload v := by
  have hcount : popCount ((~~~(0x0000FFFF#32)).setWidth 64) = 16 := by decide
  rw [patternOf_eq hv]
  unfold payload
  split_ifs
  · exact ⟨fun h => (by cases h), rfl⟩
  · exact ⟨fun h => (by cases h), rfl⟩
  · exact ⟨fun h => (by cases h), rfl⟩
  · refine ⟨fun h => (by cases h), ?_⟩
    change popCount ((~~~(0x0000FFFF#32)).setWidth 64) % 2 ^ 8 + 3 % 2 ^ 8 = 3 + 16
    omega
  · exact ⟨fun h => (by cases h), rfl⟩
  · exact ⟨fun h => (by cases h), rfl⟩
  · exact ⟨fun h => (by cases h), rfl⟩

/-! ## The payload and the smallest payload -/

/-- The words whose size is the one that their classes promise. -/
def NotNegative (v : BitVec 32) : Prop :=
  TwoHalfwords v → (halfword v 0).msb = false ∧ (halfword v 1).msb = false ∨ SignExtends 16 v ∨
    ZeroPadded v

instance (v : BitVec 32) : Decidable (NotNegative v) := inferInstanceAs (Decidable (_ → _))

theorem documentedPayload_eq (v : BitVec 32) :
    documentedPayload v =
      if SignExtends 4 v then 4 else if SignExtends 8 v ∨ RepeatedBytes v then 8
      else if SignExtends 16 v ∨ ZeroPadded v ∨ TwoHalfwords v then 16 else 32 := by
  unfold documentedPayload classes
  by_cases h4 : SignExtends 4 v <;> by_cases h8 : SignExtends 8 v <;>
    by_cases h16 : SignExtends 16 v <;> by_cases hp : ZeroPadded v <;>
    by_cases ht : TwoHalfwords v <;> by_cases hr : RepeatedBytes v <;>
    simp [h4, h8, h16, hp, ht, hr]

/-- A word of four equal bytes in one of the other classes has all bits equal. -/
theorem signExtends_of_repeatedBytes {v : BitVec 32} (hrep : RepeatedBytes v)
    (h : SignExtends 16 v ∨ ZeroPadded v ∨ TwoHalfwords v) : SignExtends 4 v := by
  have hall : ∀ b : BitVec 8, SignExtends 16 (b ++ b ++ b ++ b) ∨ ZeroPadded (b ++ b ++ b ++ b) ∨
      TwoHalfwords (b ++ b ++ b ++ b) → SignExtends 4 (b ++ b ++ b ++ b) := by
    decide +kernel
  rw [hrep] at h ⊢
  exact hall _ h

/-- The order of the patterns does not matter: only the last 16-bit class is tested differently. -/
theorem payload_eq (v : BitVec 32) :
    payload v =
      if SignExtends 4 v then 4 else if SignExtends 8 v ∨ RepeatedBytes v then 8
      else if SignExtends 16 v ∨ ZeroPadded v ∨ TwoHalfwords v ∧ (halfword v 0).msb = false ∧
        (halfword v 1).msb = false then 16 else 32 := by
  unfold payload
  by_cases hrep : RepeatedBytes v
  · have hall := signExtends_of_repeatedBytes hrep
    split_ifs <;> first | rfl | tauto
  · split_ifs <;> first | rfl | tauto

/-- The pattern is never smaller than promised. -/
theorem documentedPayload_le (v : BitVec 32) : documentedPayload v ≤ payload v := by
  rw [documentedPayload_eq, payload_eq]
  split_ifs <;> first | omega | tauto

/-- The pattern has the promised size exactly for the words that are not two halfwords with a
negative one, or are in another class of 16 bits. -/
theorem documentedPayload_eq_payload_iff (v : BitVec 32) :
    documentedPayload v = payload v ↔ NotNegative v := by
  rw [documentedPayload_eq, payload_eq]
  unfold NotNegative
  by_cases h4 : SignExtends 4 v
  · rw [if_pos h4, if_pos h4]
    exact iff_of_true rfl fun _ => .inr (.inl (h4.mono (by decide) (by decide)))
  rw [if_neg h4, if_neg h4]
  by_cases h8 : SignExtends 8 v ∨ RepeatedBytes v
  · rw [if_pos h8, if_pos h8]
    refine iff_of_true rfl fun htwo => ?_
    rcases h8 with h8 | hrep
    · exact .inr (.inl (h8.mono (by decide) (by decide)))
    · exact absurd (signExtends_of_repeatedBytes hrep (.inr (.inr htwo))) h4
  rw [if_neg h8, if_neg h8]
  by_cases hother : SignExtends 16 v ∨ ZeroPadded v
  · rw [if_pos (by tauto), if_pos (by tauto)]
    exact iff_of_true rfl fun _ => .inr hother
  by_cases htwo : TwoHalfwords v
  · rw [if_pos (.inr (.inr htwo))]
    by_cases hmsb : (halfword v 0).msb = false ∧ (halfword v 1).msb = false
    · rw [if_pos (.inr (.inr ⟨htwo, hmsb⟩))]
      exact iff_of_true rfl fun _ => .inl hmsb
    · rw [if_neg (by tauto)]
      refine iff_of_false (by decide) fun h => ?_
      rcases h htwo with h | h
      · exact hmsb h
      · exact hother h
  · rw [if_neg (by tauto), if_neg (by tauto)]
    exact iff_of_true rfl fun h => absurd h htwo

/-! ## Zero runs -/

/-- The line ends with a run of `n` zero words, `n` being zero when there is none. -/
def Pending (z : ℕ) (back : Option (Pattern PatternNumber 32)) (n : ℕ) : Prop :=
  match back with
  | none => n = 0
  | some last =>
      if last.patternNumber = ZERO_RUN then 0 < n ∧ getRunLength last = (n - 1) % 2 ^ z else n = 0

/-- The limit of a run has been reached when its length is a multiple of `2 ^ z`. -/
theorem limit_iff {z n : ℕ} (hpos : 0 < n) (hn : n < 2 ^ 29) :
    (n - 1) % 2 ^ z = (mask z).toNat ↔ 2 ^ z ∣ n := by
  unfold mask
  split_ifs with hz
  · -- the mask is larger than every run
    have hlarge : 2 ^ 64 ≤ 2 ^ z := Nat.pow_le_pow_right (by decide) hz
    rw [Nat.mod_eq_of_lt (by omega), BitVec.toNat_allOnes]
    constructor
    · intro h
      omega
    · intro h
      have hle := Nat.le_of_dvd hpos h
      omega
  · have hpow : (1#64 <<< z - 1#64).toNat = 2 ^ z - 1 := by
      have hlt : 2 ^ z < 2 ^ 64 := Nat.pow_lt_pow_right (by decide) (by omega)
      have hone : (1#64 <<< z).toNat = 2 ^ z := by
        rw [BitVec.toNat_shiftLeft, Nat.shiftLeft_eq]
        exact (congrArg (· % 2 ^ 64) (Nat.one_mul _)).trans (Nat.mod_eq_of_lt hlt)
      have hge := Nat.two_pow_pos z
      rw [BitVec.toNat_sub, hone, BitVec.toNat_ofNat]
      omega
    rw [hpow]
    have hmod := Nat.mod_lt (n - 1) (Nat.two_pow_pos z)
    have hdiv := Nat.div_add_mod (n - 1) (2 ^ z)
    constructor
    · intro h
      refine ⟨(n - 1) / 2 ^ z + 1, ?_⟩
      rw [Nat.mul_add, Nat.mul_one]
      omega
    · rintro ⟨k, hk⟩
      obtain ⟨j, rfl⟩ : ∃ j, k = j + 1 := ⟨k - 1, by
        rcases k with _ | k
        · omega
        · rfl⟩
      have hrest : n - 1 = 2 ^ z * j + (2 ^ z - 1) := by
        rw [Nat.mul_add, Nat.mul_one] at hk
        omega
      rw [hrest, Nat.mul_add_mod, Nat.mod_eq_of_lt (by omega)]

/-- One more zero word: a new entry of the run at every multiple of `2 ^ z`. -/
theorem runSize_succ (z n : ℕ) :
    runSize z (n + 1) = runSize z n + if 2 ^ z ∣ n then 3 + z else 0 := by
  have hpos := Nat.two_pow_pos z
  have hdiv : (n + 1 + 2 ^ z - 1) / 2 ^ z =
      (n + 2 ^ z - 1) / 2 ^ z + if 2 ^ z ∣ n then 1 else 0 := by
    rw [show n + 1 + 2 ^ z - 1 = (n + 2 ^ z - 1) + 1 by omega, Nat.succ_div]
    have hdvd : 2 ^ z ∣ n + 2 ^ z - 1 + 1 ↔ 2 ^ z ∣ n := by
      rw [show n + 2 ^ z - 1 + 1 = n + 2 ^ z by omega, Nat.dvd_add_self_right]
    simp only [hdvd]
  unfold runSize
  rw [Nat.ceilDiv_eq_add_pred_div, Nat.ceilDiv_eq_add_pred_div, hdiv, Nat.mul_add]
  split_ifs <;> simp

theorem succ_mod_of_not_dvd {m d : ℕ} (hd : 0 < d) (h : ¬ d ∣ m + 1) :
    (m + 1) % d = m % d + 1 := by
  have hdiv := Nat.div_add_mod m d
  have hlt := Nat.mod_lt m hd
  have hne : m % d + 1 ≠ d := by
    intro heq
    refine h ⟨m / d + 1, ?_⟩
    rw [Nat.mul_add, Nat.mul_one]
    omega
  have hsum : m + 1 = d * (m / d) + (m % d + 1) := by omega
  rw [hsum, Nat.mul_add_mod, Nat.mod_eq_of_lt (by omega)]

theorem addZero_new {z n : ℕ} {back : Option (Pattern PatternNumber 32)} (h : Pending z back n)
    (hn : n < 2 ^ 29) (hdvd : 2 ^ z ∣ n) (p : Pattern PatternNumber 32) :
    addZero z back p = setRealSize p z := by
  rcases back with _ | last
  · rfl
  · unfold Pending at h
    unfold addZero
    simp only at h ⊢
    by_cases hnumber : last.patternNumber = ZERO_RUN
    · rw [if_pos hnumber] at h
      rw [if_neg (not_not.mpr hnumber), h.2, if_pos ((limit_iff h.1 hn).mpr hdvd)]
    · rw [if_pos hnumber]

theorem addZero_more {z n : ℕ} {back : Option (Pattern PatternNumber 32)} (h : Pending z back n)
    (hn : n < 2 ^ 29) (hdvd : ¬ 2 ^ z ∣ n) (p : Pattern PatternNumber 32) :
    addZero z back p = .ok (setRunLength p (n % 2 ^ z)) := by
  have hne : n ≠ 0 := fun h0 => hdvd (h0 ▸ dvd_zero _)
  rcases back with _ | last
  · exact absurd h hne
  · unfold Pending at h
    unfold addZero
    simp only at h ⊢
    by_cases hnumber : last.patternNumber = ZERO_RUN
    · rw [if_pos hnumber] at h
      have hmod : n % 2 ^ z = (n - 1) % 2 ^ z + 1 := by
        obtain ⟨m, rfl⟩ : ∃ m, n = m + 1 := ⟨n - 1, by omega⟩
        rw [Nat.add_sub_cancel]
        exact succ_mod_of_not_dvd (Nat.two_pow_pos z) hdvd
      rw [if_neg (not_not.mpr hnumber), h.2, if_neg (mt (limit_iff h.1 hn).mp hdvd), hmod]
    · rw [if_neg hnumber] at h
      exact absurd h hne

/-! ## The size of a line -/

/-- The line so far: it ends with `n` zero words. -/
def Ends (z : ℕ) (data : CompData PatternNumber 32) (n : ℕ) : Prop :=
  Pending z data.entries.getLast? n

theorem ends_addEntry_zero {z n : ℕ} (data : CompData PatternNumber 32)
    {p : Pattern PatternNumber 32} (hnumber : p.patternNumber = ZERO_RUN)
    (hrun : getRunLength p = n % 2 ^ z) : Ends z (data.addEntry p) (n + 1) := by
  unfold Ends CompData.addEntry
  rw [List.getLast?_concat]
  unfold Pending
  simp only [if_pos hnumber]
  exact ⟨Nat.succ_pos n, hrun⟩

theorem ends_addEntry_ne_zero (z : ℕ) (data : CompData PatternNumber 32)
    {p : Pattern PatternNumber 32} (hnumber : p.patternNumber ≠ ZERO_RUN) :
    Ends z (data.addEntry p) 0 := by
  unfold Ends CompData.addEntry
  rw [List.getLast?_concat]
  unfold Pending
  simp only [if_neg hnumber]

/-- A zero word has the size of the entry it starts, if any. -/
theorem addEntry_zero {z n : ℕ} {data : CompData PatternNumber 32} (h : Ends z data n)
    (hn : n < 2 ^ 29) (hz : 3 + z < 2 ^ 31) :
    ∃ data', addEntry z data (patternOf 0#32) = .ok data' ∧ Ends z data' (n + 1) ∧
      data'.sizeBits + runSize z n = data.sizeBits + runSize z (n + 1) := by
  rw [patternOf_zero, runSize_succ]
  have hnumber : (zeroRun.new 0#32 (-1)).patternNumber = ZERO_RUN := rfl
  have hlength : (zeroRun.new 0#32 (-1)).length = 3 := rfl
  unfold addEntry
  rw [if_pos hnumber]
  by_cases hdvd : 2 ^ z ∣ n
  · rw [addZero_new h hn hdvd, if_pos hdvd]
    unfold setRealSize
    rw [hlength, require_ok (decide_eq_true hz)]
    refine ⟨_, rfl, ends_addEntry_zero data rfl ?_, ?_⟩
    · exact (Nat.mod_eq_zero_of_dvd hdvd).symm
    · change data.sizeBits + (3 + z) + _ = _
      omega
  · rw [addZero_more h hn hdvd, if_neg hdvd]
    refine ⟨_, rfl, ends_addEntry_zero data rfl rfl, ?_⟩
    change data.sizeBits + 0 + _ = _
    omega

/-- An entry whose size does not fit stops the program. -/
theorem addEntry_zero_error {z : ℕ} {data : CompData PatternNumber 32} (h : Ends z data 0)
    (hz : ¬ 3 + z < 2 ^ 31) : addEntry z data (patternOf 0#32) = .error .signedOverflow := by
  rw [patternOf_zero]
  have hnumber : (zeroRun.new 0#32 (-1)).patternNumber = ZERO_RUN := rfl
  have hlength : (zeroRun.new 0#32 (-1)).length = 3 := rfl
  unfold addEntry
  rw [if_pos hnumber, addZero_new h (by decide) (dvd_zero _)]
  unfold setRealSize
  rw [hlength, decide_eq_false hz]
  rfl

/-- A word that is not zero has the size of its payload and ends the run. -/
theorem addEntry_ne_zero (z : ℕ) (data : CompData PatternNumber 32) {v : BitVec 32}
    (hv : v ≠ 0#32) :
    ∃ data', addEntry z data (patternOf v) = .ok data' ∧ Ends z data' 0 ∧
      data'.sizeBits = data.sizeBits + (3 + payload v) := by
  obtain ⟨hnumber, hsize⟩ := patternOf_ne_zero hv
  unfold addEntry
  rw [if_neg hnumber, ← hsize]
  exact ⟨_, rfl, ends_addEntry_ne_zero z data hnumber, rfl⟩

/-- The size of a line, from a state that ends with a run of zeros. -/
theorem foldlM_addEntry {z : ℕ} (chunks : List (BitVec 32)) :
    ∀ (data : CompData PatternNumber 32) (acc : List (BitVec 32)), Ends z data acc.length →
      acc.length + chunks.length < 2 ^ 29 → (0#32 ∈ chunks → 3 + z < 2 ^ 31) →
      ∃ data', chunks.foldlM (fun data v => addEntry z data (patternOf v)) data = .ok data' ∧
        data'.sizeBits + runSize z acc.length = data.sizeBits +
          ((chunks.filter (· ≠ 0#32)).map fun v => 3 + payload v).sum +
          ((chunks.splitOnPPrepend (· ≠ 0#32) acc).map fun run => runSize z run.length).sum := by
  induction chunks with
  | nil =>
    intro data acc _ _ _
    refine ⟨data, rfl, ?_⟩
    simp
  | cons v chunks ih =>
    intro data acc hends hlen hz
    rw [List.length_cons] at hlen
    have hz' : 0#32 ∈ chunks → 3 + z < 2 ^ 31 := fun h => hz (List.mem_cons_of_mem _ h)
    rw [List.foldlM_cons]
    by_cases hv : v = 0#32
    · subst hv
      obtain ⟨data₁, hadd, hends₁, hsize⟩ :=
        addEntry_zero hends (by omega) (hz List.mem_cons_self)
      obtain ⟨data', hdata', hsize'⟩ := ih data₁ (0#32 :: acc) hends₁
        (by rw [List.length_cons]; omega) hz'
      refine ⟨data', bind_eq_ok.mpr ⟨data₁, hadd, hdata'⟩, ?_⟩
      rw [List.splitOnPPrepend_cons_neg (by simp), List.filter_cons_of_neg (by simp)]
      rw [List.length_cons] at hsize'
      omega
    · obtain ⟨data₁, hadd, hends₁, hsize⟩ := addEntry_ne_zero z data hv
      obtain ⟨data', hdata', hsize'⟩ := ih data₁ [] hends₁ (by rw [List.length_nil]; omega) hz'
      refine ⟨data', bind_eq_ok.mpr ⟨data₁, hadd, hdata'⟩, ?_⟩
      rw [List.splitOnPPrepend_cons_pos (by simp [hv]), List.filter_cons_of_pos (by simp [hv]),
        List.map_cons, List.sum_cons, List.map_cons, List.sum_cons, List.length_reverse]
      have hempty : runSize z ([] : List (BitVec 32)).length = 0 := by simp [runSize]
      rw [List.splitOnPPrepend_nil_right, hempty] at hsize'
      omega

/-- A zero word does not fit. -/
theorem foldlM_addEntry_error {z : ℕ} (hz : ¬ 3 + z < 2 ^ 31) (chunks : List (BitVec 32)) :
    ∀ data : CompData PatternNumber 32, Ends z data 0 → 0#32 ∈ chunks →
      chunks.foldlM (fun data v => addEntry z data (patternOf v)) data =
        .error .signedOverflow := by
  induction chunks with
  | nil =>
    intro data _ hmem
    cases hmem
  | cons v chunks ih =>
    intro data hends hmem
    rw [List.foldlM_cons]
    by_cases hv : v = 0#32
    · subst hv
      exact bind_eq_error.mpr (.inl (addEntry_zero_error hends hz))
    · obtain ⟨data₁, hadd, hends₁, -⟩ := addEntry_ne_zero z data hv
      have hmem' : 0#32 ∈ chunks := List.mem_of_ne_of_mem (Ne.symm hv) hmem
      exact bind_eq_error.mpr (.inr ⟨data₁, hadd, ih data₁ hends₁ hmem'⟩)

/-- The dictionary stays empty: every word gets the first pattern that matches without one. -/
theorem compressChunk_eq (z : ℕ) (data : CompData PatternNumber 32) (v : BitVec 32) :
    (compressor z size).compressChunk (data, Dictionary.reset) v =
      (addEntry z data (patternOf v)).map fun data' => (data', Dictionary.reset) := by
  have hsearch : (compressor z size).search Dictionary.reset v = patternOf v :=
    Compressor.search_of_valid_nil Dictionary.valid_reset v
  have halloc : (compressor z size).allocate Dictionary.reset (patternOf v) v =
      .ok Dictionary.reset := by
    unfold Compressor.allocate
    split_ifs <;> rfl
  have hvalue : (compressor z size).compressValue Dictionary.reset v =
      .ok (patternOf v, Dictionary.reset) := by
    unfold Compressor.compressValue
    rw [hsearch]
    exact bind_eq_ok.mpr ⟨_, halloc, rfl⟩
  unfold Compressor.compressChunk
  rw [hvalue]
  change (addEntry z data (patternOf v) >>= fun data' => pure (data', Dictionary.reset)) = _
  rcases addEntry z data (patternOf v) with e | data' <;> rfl

theorem compress_eq (z : ℕ) (chunks : List (BitVec 32)) :
    (compressor z size).compress chunks =
      (chunks.foldlM (fun data v => addEntry z data (patternOf v)) {}).map
        fun data => (data, Dictionary.reset) := by
  change chunks.foldlM (compressor z size).compressChunk ({}, Dictionary.reset) = _
  suffices hgen : ∀ data : CompData PatternNumber 32,
      chunks.foldlM (compressor z size).compressChunk (data, Dictionary.reset) =
        (chunks.foldlM (fun data v => addEntry z data (patternOf v)) data).map
          fun data => (data, Dictionary.reset) from hgen {}
  induction chunks with
  | nil =>
    intro data
    rfl
  | cons v chunks ih =>
    intro data
    rw [List.foldlM_cons, List.foldlM_cons, compressChunk_eq]
    rcases addEntry z data (patternOf v) with e | data'
    · rfl
    · exact ih data'

/-- A sum of larger terms is the same exactly when all terms are. -/
theorem sum_eq_iff {ι : Type} {f g : ι → ℕ} {l : List ι} (hle : ∀ v ∈ l, f v ≤ g v) :
    (l.map g).sum = (l.map f).sum ↔ ∀ v ∈ l, f v = g v := by
  induction l with
  | nil => simp
  | cons v l ih =>
    have hv := hle v List.mem_cons_self
    have hrest : ∀ v ∈ l, f v ≤ g v := fun u hu => hle u (List.mem_cons_of_mem _ hu)
    have hsum : (l.map f).sum ≤ (l.map g).sum := List.sum_le_sum hrest
    rw [List.map_cons, List.sum_cons, List.map_cons, List.sum_cons, List.forall_mem_cons,
      ← ih hrest]
    omega

/-- **FPC size.**  For every number of zero-run bits and every line, compression returns the size
that the classes of its words promise exactly when the entry of a zero run fits an `int`, and no
word outside the other 16-bit classes is two sign-extended halfwords with a negative one. -/
theorem size_eq_documentedSize_iff (z size : ℕ) {chunks : List (BitVec 32)}
    (hline : chunks.length < 2 ^ 29) :
    (∃ data d, (compressor z size).compress chunks = .ok (data, d) ∧
        data.sizeBits = documentedSize z chunks) ↔
      (0#32 ∈ chunks → 3 + z < 2 ^ 31) ∧ ∀ v ∈ chunks, NotNegative v := by
  rw [compress_eq]
  by_cases hz : 0#32 ∈ chunks → 3 + z < 2 ^ 31
  · obtain ⟨data, hdata, hsize⟩ := foldlM_addEntry chunks {} [] (by rfl) (by simpa using hline) hz
    have hempty : runSize z ([] : List (BitVec 32)).length = 0 := by simp [runSize]
    have hstart : ({} : CompData PatternNumber 32).sizeBits = 0 := rfl
    rw [hempty, hstart, List.splitOnPPrepend_nil_right] at hsize
    have hpayload : (∀ v ∈ chunks, NotNegative v) ↔
        ((chunks.filter (· ≠ 0#32)).map fun v => 3 + payload v).sum =
          ((chunks.filter (· ≠ 0#32)).map fun v => 3 + documentedPayload v).sum := by
      rw [sum_eq_iff fun v _ => Nat.add_le_add_left (documentedPayload_le v) 3]
      constructor
      · intro h v hv
        rw [(documentedPayload_eq_payload_iff v).mpr (h v (List.mem_filter.mp hv).1)]
      · intro h v hv
        by_cases hzero : v = 0#32
        · subst hzero
          exact fun _ => .inr (.inr (by decide))
        · have heq := h v (List.mem_filter.mpr ⟨hv, by simpa using hzero⟩)
          exact (documentedPayload_eq_payload_iff v).mp (Nat.add_left_cancel heq)
    rw [hdata, hpayload]
    unfold documentedSize
    constructor
    · rintro ⟨data', d, heq, hdoc⟩
      cases heq
      exact ⟨hz, by omega⟩
    · rintro ⟨-, hdoc⟩
      exact ⟨data, _, rfl, by omega⟩
  · have hmem : 0#32 ∈ chunks := by
      by_contra hmem
      exact hz fun h => absurd h hmem
    have hlarge : ¬ 3 + z < 2 ^ 31 := fun h => hz fun _ => h
    rw [foldlM_addEntry_error hlarge chunks {} (by rfl) hmem]
    constructor
    · rintro ⟨data, d, h, -⟩
      cases h
    · rintro ⟨h, -⟩
      exact absurd h hz

/-- A run of three zeros, a small word and a negative one. -/
theorem size_eq_documentedSize_five :
    ∃ data d, (compressor 3 1).compress [0#32, 0#32, 0#32, 5#32, 0xFFFFFFF0#32] = .ok (data, d) ∧
      data.sizeBits = documentedSize 3 [0#32, 0#32, 0#32, 5#32, 0xFFFFFFF0#32] := by
  refine (size_eq_documentedSize_iff 3 1 (by decide)).mpr ⟨by decide, ?_⟩
  simp [NotNegative, SignExtends, ZeroPadded]

/-- A word of two negative halfwords, each the sign extension of its low byte, is left uncompressed:
35 bits and not 19. -/
theorem negative_halfwords_uncompressed :
    ((compressor 3 1).compress [0xFF81FF82#32]).map (fun r => r.1.sizeBits) = .ok 35 ∧
      documentedSize 3 [0xFF81FF82#32] = 19 := by
  have hpattern : patternOf 0xFF81FF82#32 = uncompressed.new 0xFF81FF82#32 (-1) := by
    rw [patternOf_eq (by decide)]
    simp [SignExtends, ZeroPadded, RepeatedBytes, TwoHalfwords, halfword, BitVec.msb_eq_decide]
  constructor
  · rw [compress_eq, List.foldlM_cons, hpattern]
    rfl
  · have hruns : ([0xFF81FF82#32].splitOnP (· ≠ 0#32)) = [[], []] := by decide
    unfold documentedSize
    rw [hruns]
    simp [documentedPayload_eq, SignExtends, ZeroPadded, RepeatedBytes, TwoHalfwords, halfword,
      runSize]

end Gem5.Compression.FPC
