/-
# The skewed associative indexing

Embedding of `mem/cache/tags/indexing_policies/skewed_associative.cc` with the fields of the base
indexing policy.  Every way has its own hash of the set bits and of the tag bits above them, and
`regenerateAddr` undoes it to find the address of a block that is written back.  Four of the eight
functions are undone by repeating the hash, which is a step of the register of
`Gem5.ShiftRegister`.
-/
import Gem5.Bitfield
import Gem5.ShiftRegister

namespace Gem5.Mem

open Base

/-- `SkewedAssociative`, with the fields of `BaseIndexingPolicy`. -/
structure SkewedAssociative where
  numSets : ℕ
  setShift : ℕ
  deriving DecidableEq, Repr

namespace SkewedAssociative

/-! ## The functions -/

/-- `msbShift` -/
def msbShift (p : SkewedAssociative) : ℕ := Nat.log2 p.numSets - 1

/-- `setMask` -/
def setMask (p : SkewedAssociative) : Addr := BitVec.ofNat 64 (p.numSets - 1)

/-- `tagShift` -/
def tagShift (p : SkewedAssociative) : ℕ := p.setShift + Nat.log2 p.numSets

/-- `hash(addr)` -/
def hash (p : SkewedAssociative) (addr : Addr) : Addr :=
  let lsb := (bits addr 0 0).setWidth 8
  let msb := (bits addr p.msbShift p.msbShift).setWidth 8
  let xorBit := msb ^^^ lsb
  insertBits (addr >>> 1) (BitVec.ofNat 32 p.msbShift) (BitVec.ofNat 32 p.msbShift)
    (xorBit.setWidth 64)

/-- `dehash(addr)` -/
def dehash (p : SkewedAssociative) (addr : Addr) : Addr :=
  let msb := (bits addr (p.msbShift - 1) (p.msbShift - 1)).setWidth 8
  let xorBit := (bits addr p.msbShift p.msbShift).setWidth 8
  let lsb := msb ^^^ xorBit
  let addrNoMsb := mbits addr (p.msbShift - 1) 0
  insertBits (addrNoMsb <<< 1) (BitVec.ofNat 32 0) (BitVec.ofNat 32 0) (lsb.setWidth 64)

/-- The skewing function that `skew` selects for the way. -/
def skewFunction (p : SkewedAssociative) (way : ℕ) (addr1 addr2 : Addr) : Addr :=
  match way % 8 with
  | 0 => p.hash addr1 ^^^ p.hash addr2 ^^^ addr2
  | 1 => p.hash addr1 ^^^ p.hash addr2 ^^^ addr1
  | 2 => p.hash addr1 ^^^ p.dehash addr2 ^^^ addr2
  | 3 => p.hash addr1 ^^^ p.dehash addr2 ^^^ addr1
  | 4 => p.dehash addr1 ^^^ p.hash addr2 ^^^ addr2
  | 5 => p.dehash addr1 ^^^ p.hash addr2 ^^^ addr1
  | 6 => p.dehash addr1 ^^^ p.dehash addr2 ^^^ addr2
  | _ => p.dehash addr1 ^^^ p.dehash addr2 ^^^ addr1

/-- `skew(addr, way)` -/
def skew (p : SkewedAssociative) (addr : Addr) (way : ℕ) : Addr :=
  let addr1 := bits addr p.msbShift 0
  let addr2 := bits addr (2 * (p.msbShift + 1) - 1) (p.msbShift + 1)
  p.hash^[way / 8] (p.skewFunction way addr1 addr2)

/-- What `deskew` selects for the way. -/
def deskewFunction (p : SkewedAssociative) (way : ℕ) (addr1 addr2 : Addr) : Addr :=
  match way % 8 with
  | 0 => p.dehash (addr1 ^^^ p.hash addr2 ^^^ addr2)
  | 1 => p.hash^[p.msbShift] (addr1 ^^^ p.hash addr2)
  | 2 => p.dehash (addr1 ^^^ p.dehash addr2 ^^^ addr2)
  | 3 => p.hash^[p.msbShift] (addr1 ^^^ p.dehash addr2)
  | 4 => p.hash (addr1 ^^^ p.hash addr2 ^^^ addr2)
  | 5 => p.hash^[p.msbShift + 1] (addr1 ^^^ p.hash addr2)
  | 6 => p.hash (addr1 ^^^ p.dehash addr2 ^^^ addr2)
  | _ => p.hash^[p.msbShift + 1] (addr1 ^^^ p.dehash addr2)

/-- `deskew(addr, way)` -/
def deskew (p : SkewedAssociative) (addr : Addr) (way : ℕ) : Addr :=
  let addr1 := bits addr p.msbShift 0
  let addr2 := bits addr (2 * (p.msbShift + 1) - 1) (p.msbShift + 1)
  p.deskewFunction way (if way ≥ 8 then p.dehash^[way / 8] addr1 else addr1) addr2

/-- `extractSet(addr, way)`, a 32-bit number. -/
def extractSet (p : SkewedAssociative) (addr : Addr) (way : ℕ) : BitVec 32 :=
  (p.skew (addr >>> p.setShift) way &&& p.setMask).setWidth 32

/-- `regenerateAddr(tag, entry)`, from the set and the way of the entry. -/
def regenerateAddr (p : SkewedAssociative) (tag : Addr) (set : BitVec 32) (way : ℕ) : Addr :=
  let addrSet := tag <<< (p.msbShift + 1) ||| set.setWidth 64
  tag <<< p.tagShift ||| (p.deskew addrSet way &&& p.setMask) <<< p.setShift

/-! ## The hash as a register -/

/-- Numbers of `n` bits. -/
def Word (n : ℕ) (a : Addr) : Prop := ShiftRegister.Word n a.getLsbD

/-- The policy has `2 ^ n` sets, as many as the constructor accepts. -/
structure HasSets (p : SkewedAssociative) (n : ℕ) : Prop where
  two_le : 2 ≤ n
  numSets : p.numSets = 2 ^ n
  le : p.setShift + 2 * n ≤ 64

section Register

variable {p : SkewedAssociative} {n : ℕ} {a b : Addr}

theorem HasSets.msbShift (h : p.HasSets n) : p.msbShift = n - 1 := by
  unfold SkewedAssociative.msbShift
  rw [h.numSets, Nat.log2_two_pow]

theorem HasSets.tagShift (h : p.HasSets n) : p.tagShift = p.setShift + n := by
  unfold SkewedAssociative.tagShift
  rw [h.numSets, Nat.log2_two_pow]

theorem HasSets.getLsbD_setMask (h : p.HasSets n) (k : ℕ) :
    p.setMask.getLsbD k = decide (k < n) := by
  have hn := h.le
  have h2 := h.two_le
  unfold setMask
  rw [h.numSets, BitVec.getLsbD_ofNat, Nat.testBit_two_pow_sub_one]
  by_cases hk : k < n
  · simp [hk]
    omega
  · simp [hk]

theorem word_xor (ha : Word n a) (hb : Word n b) : Word n (a ^^^ b) := by
  intro i hi
  rw [BitVec.getLsbD_xor, ha i hi, hb i hi]
  rfl

theorem getLsbD_xor_fun (a b : Addr) :
    (a ^^^ b).getLsbD = fun i => a.getLsbD i ^^ b.getLsbD i := by
  funext i
  exact BitVec.getLsbD_xor

/-- Equal bits make equal words. -/
theorem eq_of_getLsbD (h : a.getLsbD = b.getLsbD) : a = b :=
  BitVec.eq_of_getLsbD_eq fun i _ => congrFun h i

/-- The lowest bit of the sum of two bytes that hold one bit each. -/
theorem getLsbD_xor_bytes (a : Addr) (j k : ℕ) :
    (((bits a j j).setWidth 8 ^^^ (bits a k k).setWidth 8).setWidth 64).getLsbD 0 =
      (a.getLsbD j ^^ a.getLsbD k) := by
  rw [BitVec.getLsbD_setWidth, BitVec.getLsbD_xor, BitVec.getLsbD_setWidth,
    BitVec.getLsbD_setWidth, getLsbD_bits, getLsbD_bits]
  simp only [Nat.zero_lt_succ, decide_true, Bool.true_and, Nat.sub_self, Nat.add_zero,
    Nat.zero_add, Bool.and_true]

/-- The hash is a step of the register. -/
theorem getLsbD_hash (h : p.HasSets n) (ha : Word n a) :
    (p.hash a).getLsbD = ShiftRegister.step n a.getLsbD := by
  have hn := h.le
  have h2 := h.two_le
  have hmsb : p.msbShift < 64 := by
    rw [h.msbShift]
    omega
  funext i
  by_cases hi : i < 64
  · unfold hash ShiftRegister.step
    rw [getLsbD_insertBits_one hmsb hi, h.msbShift]
    by_cases hlast : i + 1 = n
    · rw [if_pos (by omega), if_pos hlast]
      rw [getLsbD_xor_bytes, show n - 1 = i by omega]
    · rw [if_neg (by omega), if_neg hlast, BitVec.getLsbD_ushiftRight, Nat.add_comm]
      by_cases hlt : i + 1 < n
      · rw [if_pos hlt]
      · rw [if_neg hlt, ha (i + 1) (by omega)]
  · rw [BitVec.getLsbD_of_ge _ i (by omega), ShiftRegister.word_step n _ i (by omega)]

/-- The inverse hash is a step back. -/
theorem getLsbD_dehash (h : p.HasSets n) (a : Addr) :
    (p.dehash a).getLsbD = ShiftRegister.back n a.getLsbD := by
  have hn := h.le
  have h2 := h.two_le
  funext i
  by_cases hi : i < 64
  · unfold dehash ShiftRegister.back
    rw [getLsbD_insertBits_one (by omega) hi, h.msbShift]
    by_cases hi0 : i = 0
    · rw [if_pos hi0, if_pos hi0]
      rw [getLsbD_xor_bytes, Nat.sub_sub]
    · rw [if_neg hi0, if_neg hi0, BitVec.getLsbD_shiftLeft, getLsbD_mbits_low]
      rw [decide_eq_true hi, decide_eq_false (by omega : ¬ i < 1), Bool.not_false, Bool.true_and,
        Bool.true_and]
      by_cases hlt : i < n
      · rw [if_pos hlt, decide_eq_true (by omega), Bool.and_true]
      · rw [if_neg hlt, decide_eq_false (by omega), Bool.and_false]
  · rw [BitVec.getLsbD_of_ge _ i (by omega), ShiftRegister.word_back (by omega) _ i (by omega)]

theorem word_hash (h : p.HasSets n) (ha : Word n a) : Word n (p.hash a) := by
  unfold Word
  rw [getLsbD_hash h ha]
  exact ShiftRegister.word_step n _

theorem word_dehash (h : p.HasSets n) (a : Addr) : Word n (p.dehash a) := by
  have h2 := h.two_le
  unfold Word
  rw [getLsbD_dehash h]
  exact ShiftRegister.word_back (by omega) _

theorem word_iterate_hash (h : p.HasSets n) (ha : Word n a) (k : ℕ) : Word n (p.hash^[k] a) := by
  induction k with
  | zero => exact ha
  | succ k ih =>
    rw [Function.iterate_succ_apply']
    exact word_hash h ih

theorem getLsbD_iterate_hash (h : p.HasSets n) (ha : Word n a) (k : ℕ) :
    (p.hash^[k] a).getLsbD = (ShiftRegister.step n)^[k] a.getLsbD := by
  induction k with
  | zero => rfl
  | succ k ih =>
    rw [Function.iterate_succ_apply', Function.iterate_succ_apply',
      getLsbD_hash h (word_iterate_hash h ha k), ih]

theorem dehash_hash (h : p.HasSets n) (ha : Word n a) : p.dehash (p.hash a) = a := by
  apply eq_of_getLsbD
  rw [getLsbD_dehash h, getLsbD_hash h ha, ShiftRegister.back_step h.two_le ha]

theorem hash_dehash (h : p.HasSets n) (ha : Word n a) : p.hash (p.dehash a) = a := by
  apply eq_of_getLsbD
  rw [getLsbD_hash h (word_dehash h a), getLsbD_dehash h, ShiftRegister.step_back h.two_le ha]

/-- The hashes that are piled up are taken off one by one. -/
theorem iterate_dehash_hash (h : p.HasSets n) (k : ℕ) :
    ∀ {a : Addr}, Word n a → p.dehash^[k] (p.hash^[k] a) = a := by
  induction k with
  | zero => exact fun _ => rfl
  | succ k ih =>
    intro a ha
    rw [Function.iterate_succ_apply, Function.iterate_succ_apply' p.hash,
      dehash_hash h (word_iterate_hash h ha k), ih ha]

/-- Ways 1 and 3: the hash repeated `msbShift` times inverts the hash plus the identity. -/
theorem iterate_hash_add_self (h : p.HasSets n) (ha : Word n a) :
    p.hash^[p.msbShift] (p.hash a ^^^ a) = a := by
  have h2 := h.two_le
  apply eq_of_getLsbD
  rw [getLsbD_iterate_hash h (word_xor (word_hash h ha) ha), getLsbD_xor_fun, getLsbD_hash h ha,
    h.msbShift]
  exact ShiftRegister.iterate_step_add_self (by omega) ha

/-- Ways 5 and 7: one more time inverts the inverse hash plus the identity. -/
theorem iterate_dehash_add_self (h : p.HasSets n) (ha : Word n a) :
    p.hash^[p.msbShift + 1] (p.dehash a ^^^ a) = a := by
  have h2 := h.two_le
  apply eq_of_getLsbD
  rw [getLsbD_iterate_hash h (word_xor (word_dehash h a) ha), getLsbD_xor_fun,
    getLsbD_dehash h, h.msbShift, Nat.sub_add_cancel (by omega : 1 ≤ n)]
  exact ShiftRegister.iterate_back_add_self h.two_le ha

end Register

/-! ## Deskewing -/

section Deskew

variable {p : SkewedAssociative} {n : ℕ} {addr1 addr2 : Addr}

theorem word_skewFunction (h : p.HasSets n) (h1 : Word n addr1) (h2 : Word n addr2) (way : ℕ) :
    Word n (p.skewFunction way addr1 addr2) := by
  have hash1 := word_hash h h1
  have hash2 := word_hash h h2
  have dehash1 := word_dehash h addr1
  have dehash2 := word_dehash h addr2
  unfold skewFunction
  split
  · exact word_xor (word_xor hash1 hash2) h2
  · exact word_xor (word_xor hash1 hash2) h1
  · exact word_xor (word_xor hash1 dehash2) h2
  · exact word_xor (word_xor hash1 dehash2) h1
  · exact word_xor (word_xor dehash1 hash2) h2
  · exact word_xor (word_xor dehash1 hash2) h1
  · exact word_xor (word_xor dehash1 dehash2) h2
  · exact word_xor (word_xor dehash1 dehash2) h1

theorem xor_cancel_two (x y z : Addr) : x ^^^ y ^^^ z ^^^ y ^^^ z = x := by
  rw [BitVec.xor_assoc x y z, BitVec.xor_assoc, BitVec.xor_assoc, BitVec.xor_self, BitVec.xor_zero]

theorem xor_cancel_middle (x y z : Addr) : x ^^^ y ^^^ z ^^^ y = x ^^^ z := by
  rw [BitVec.xor_assoc x y z, BitVec.xor_comm y z, ← BitVec.xor_assoc x z y, BitVec.xor_assoc,
    BitVec.xor_self, BitVec.xor_zero]

/-- **The eight functions.**  `deskew` undoes the skewing function of every way. -/
theorem deskewFunction_skewFunction (h : p.HasSets n) (h1 : Word n addr1) (way : ℕ) :
    p.deskewFunction way (p.skewFunction way addr1 addr2) addr2 = addr1 := by
  have hway : way % 8 < 8 := Nat.mod_lt way (by decide)
  unfold deskewFunction skewFunction
  generalize way % 8 = w at hway
  interval_cases w
  · change p.dehash (p.hash addr1 ^^^ p.hash addr2 ^^^ addr2 ^^^ p.hash addr2 ^^^ addr2) = addr1
    rw [xor_cancel_two, dehash_hash h h1]
  · change p.hash^[p.msbShift] (p.hash addr1 ^^^ p.hash addr2 ^^^ addr1 ^^^ p.hash addr2) = addr1
    rw [xor_cancel_middle, iterate_hash_add_self h h1]
  · change p.dehash (p.hash addr1 ^^^ p.dehash addr2 ^^^ addr2 ^^^ p.dehash addr2 ^^^ addr2) = addr1
    rw [xor_cancel_two, dehash_hash h h1]
  · change p.hash^[p.msbShift] (p.hash addr1 ^^^ p.dehash addr2 ^^^ addr1 ^^^ p.dehash addr2) =
      addr1
    rw [xor_cancel_middle, iterate_hash_add_self h h1]
  · change p.hash (p.dehash addr1 ^^^ p.hash addr2 ^^^ addr2 ^^^ p.hash addr2 ^^^ addr2) = addr1
    rw [xor_cancel_two, hash_dehash h h1]
  · change p.hash^[p.msbShift + 1] (p.dehash addr1 ^^^ p.hash addr2 ^^^ addr1 ^^^ p.hash addr2) =
      addr1
    rw [xor_cancel_middle, iterate_dehash_add_self h h1]
  · change p.hash (p.dehash addr1 ^^^ p.dehash addr2 ^^^ addr2 ^^^ p.dehash addr2 ^^^ addr2) = addr1
    rw [xor_cancel_two, hash_dehash h h1]
  · change p.hash^[p.msbShift + 1] (p.dehash addr1 ^^^ p.dehash addr2 ^^^ addr1 ^^^
      p.dehash addr2) = addr1
    rw [xor_cancel_middle, iterate_dehash_add_self h h1]

theorem word_bits (h : p.HasSets n) (addr : Addr) (k : ℕ) :
    Word n (bits addr (k + p.msbShift) k) := by
  have h2 := h.two_le
  intro i hi
  rw [getLsbD_bits, h.msbShift, decide_eq_false (by omega), Bool.and_false]

theorem word_skew (h : p.HasSets n) (addr : Addr) (way : ℕ) : Word n (p.skew addr way) := by
  have h2 := h.two_le
  have hlow := word_bits h addr 0
  have hhigh := word_bits h addr (p.msbShift + 1)
  rw [Nat.zero_add] at hlow
  rw [show p.msbShift + 1 + p.msbShift = 2 * (p.msbShift + 1) - 1 by omega] at hhigh
  exact word_iterate_hash h (word_skewFunction h hlow hhigh way) _

/-- **Deskewing.**  From the skewed set bits and the tag bits above them `deskew` finds the set
bits, for every way, also where hashes are piled up. -/
theorem deskew_skew (h : p.HasSets n) (addr tag : Addr) (way : ℕ)
    (htag : ∀ i, i < n → tag.getLsbD i = addr.getLsbD (n + i)) :
    p.deskew (tag <<< (p.msbShift + 1) ||| p.skew addr way) way = bits addr p.msbShift 0 := by
  have h2 := h.two_le
  have hn := h.le
  have hword := word_skew h addr way
  have hlow := word_bits h addr 0
  rw [Nat.zero_add] at hlow
  have hhigh := word_bits h addr (p.msbShift + 1)
  rw [show p.msbShift + 1 + p.msbShift = 2 * (p.msbShift + 1) - 1 by omega] at hhigh
  have hset : bits (tag <<< (p.msbShift + 1) ||| p.skew addr way) p.msbShift 0 =
      p.skew addr way := by
    apply eq_of_getLsbD
    funext i
    rw [getLsbD_bits, Nat.zero_add, BitVec.getLsbD_or, BitVec.getLsbD_shiftLeft, h.msbShift]
    by_cases hi : i < n
    · rw [decide_eq_true (by omega : i < n - 1 + 1), decide_eq_true (by omega : i < n - 1 - 0 + 1)]
      simp
    · rw [hword i (by omega), decide_eq_false (by omega : ¬ i < n - 1 - 0 + 1), Bool.and_false]
  have hupper : bits (tag <<< (p.msbShift + 1) ||| p.skew addr way) (2 * (p.msbShift + 1) - 1)
      (p.msbShift + 1) = bits addr (2 * (p.msbShift + 1) - 1) (p.msbShift + 1) := by
    apply eq_of_getLsbD
    funext i
    rw [getLsbD_bits, getLsbD_bits, BitVec.getLsbD_or, BitVec.getLsbD_shiftLeft, h.msbShift,
      Nat.sub_add_cancel (by omega : 1 ≤ n), hword (n + i) (by omega), Bool.or_false]
    by_cases hi : i < n
    · rw [decide_eq_true (by omega : n + i < 64), decide_eq_false (by omega : ¬ n + i < n),
        Nat.add_sub_cancel_left, htag i hi]
      rfl
    · rw [decide_eq_false (by omega : ¬ i < 2 * n - 1 - n + 1), Bool.and_false, Bool.and_false]
  unfold deskew
  simp only [hset, hupper]
  have hunpile : (if way ≥ 8 then p.dehash^[way / 8] (p.skew addr way) else p.skew addr way) =
      p.skewFunction way (bits addr p.msbShift 0)
        (bits addr (2 * (p.msbShift + 1) - 1) (p.msbShift + 1)) := by
    by_cases hway : way ≥ 8
    · rw [if_pos hway]
      exact iterate_dehash_hash h _ (word_skewFunction h hlow hhigh way)
    · rw [if_neg hway]
      unfold skew
      rw [Nat.div_eq_of_lt (by omega)]
      rfl
  rw [hunpile, deskewFunction_skewFunction h hlow]

/-- **Regeneration.**  For every number of sets, every way and every address, the tag and the set
that `extractSet` gives for the way lead back to the address of the block. -/
theorem regenerateAddr_extractSet (h : p.HasSets n) (a : Addr) (way : ℕ) :
    p.regenerateAddr (a >>> p.tagShift) (p.extractSet a way) way =
      a &&& ~~~(mask p.setShift) := by
  have h2 := h.two_le
  have hn := h.le
  have hset : (p.extractSet a way).setWidth 64 = p.skew (a >>> p.setShift) way := by
    apply eq_of_getLsbD
    funext i
    unfold extractSet
    rw [BitVec.getLsbD_setWidth, BitVec.getLsbD_setWidth, BitVec.getLsbD_and, h.getLsbD_setMask]
    by_cases hi : i < n
    · rw [decide_eq_true hi, decide_eq_true (by omega : i < 32), decide_eq_true (by omega : i < 64)]
      simp
    · rw [word_skew h _ way i (by omega), Bool.false_and, Bool.and_false, Bool.and_false]
  have hdeskew := deskew_skew h (a >>> p.setShift) (a >>> p.tagShift) way (by
    intro i hi
    rw [BitVec.getLsbD_ushiftRight, BitVec.getLsbD_ushiftRight, h.tagShift, Nat.add_assoc])
  unfold regenerateAddr
  simp only [hset, hdeskew]
  apply eq_of_getLsbD
  funext i
  rw [BitVec.getLsbD_or, BitVec.getLsbD_shiftLeft, BitVec.getLsbD_shiftLeft,
    BitVec.getLsbD_ushiftRight, BitVec.getLsbD_and, BitVec.getLsbD_and, BitVec.getLsbD_not,
    getLsbD_mask, getLsbD_bits, h.getLsbD_setMask, BitVec.getLsbD_ushiftRight, Nat.zero_add,
    h.msbShift]
  by_cases hi : i < 64
  · rw [decide_eq_true hi]
    by_cases hlow : i < p.setShift
    · simp [hlow, show i < p.tagShift by rw [h.tagShift]; omega]
    · by_cases hmid : i < p.tagShift
      · have hmid' := hmid
        rw [h.tagShift] at hmid'
        simp [hlow, hmid, show i - p.setShift < n by omega, show i - p.setShift < n - 1 + 1 by omega,
          show p.setShift + (i - p.setShift) = i by omega]
      · have hmid' := hmid
        rw [h.tagShift] at hmid'
        simp [hlow, hmid, show ¬ i - p.setShift < n by omega,
          show p.tagShift + (i - p.tagShift) = i by omega]
  · rw [BitVec.getLsbD_of_ge a i (by omega)]
    simp [hi]

/-- Four sets of 64-byte blocks, and a way with one hash piled up. -/
theorem regenerateAddr_extractSet_four :
    let p : SkewedAssociative := { numSets := 4, setShift := 6 }
    p.regenerateAddr (0x12345678#64 >>> p.tagShift) (p.extractSet 0x12345678#64 13) 13 =
      0x12345678#64 &&& ~~~(mask p.setShift) :=
  regenerateAddr_extractSet (n := 2) ⟨by decide, rfl, by decide⟩ 0x12345678#64 13

end Deskew

end SkewedAssociative

end Gem5.Mem
