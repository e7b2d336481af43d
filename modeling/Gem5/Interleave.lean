/-
# Removing and adding interleaving bits

`removeIntlvBits` drops the lowest bit of every mask from an address, `addIntlvBits`
opens these positions again and computes the dropped bits from the match value.
Dropping and opening are inverse to each other, whatever the positions: both loops are
brought to one form, in which the highest position is dropped first and opened last.

The bits are then computed with `~(1 << lsb)`, an `int`.  For a lowest bit below 31 it
clears exactly that bit; for 31 it clears all higher bits as well, and from 32 on the
shift is not defined.  So the round trips hold exactly for ranges whose masks all start
below bit 31 or consist of bit 31 alone (`roundTrips_iff`).
-/
import Gem5.AddrRange

open Runs

namespace Gem5.Base

/-! ## Dropping and opening one position -/

/-- Drop the bit at a position. -/
def dropBit (p : ℕ) (a : Addr) : Addr :=
  insertBits (a >>> 1) (BitVec.ofInt 32 ((p : ℤ) - 1)) 0 a

theorem ofInt_pred_add_one {p : ℕ} (hp : p < 2 ^ 32) :
    (BitVec.ofInt 32 ((p : ℤ) - 1) + 1).toNat = p := by
  have hone : (1 : BitVec 32) = BitVec.ofInt 32 1 := rfl
  rw [hone, ← BitVec.ofInt_add, sub_add_cancel, BitVec.ofInt_natCast, BitVec.toNat_ofNat]
  exact Nat.mod_eq_of_lt hp

theorem getLsbD_dropBit {p : ℕ} (hp : p < 64) (a : Addr) (k : ℕ) :
    (dropBit p a).getLsbD k = if k < p then a.getLsbD k else a.getLsbD (k + 1) := by
  rcases Nat.lt_or_ge k 64 with hk | hk
  · unfold dropBit
    rw [getLsbD_insertBits_low (ofInt_pred_add_one (by omega)) hk, BitVec.getLsbD_ushiftRight,
      Nat.add_comm 1 k]
  · rw [if_neg (by omega), BitVec.getLsbD_of_ge _ _ hk, BitVec.getLsbD_of_ge _ _ (by omega)]

theorem getLsbD_openBit {p : ℕ} (hp : p < 64) (a : Addr) {k : ℕ} (hk : k < 64) :
    (openBit p a).getLsbD k =
      if k < p then a.getLsbD k else (decide (1 ≤ k) && a.getLsbD (k - 1)) := by
  have hshift : (a <<< 1).getLsbD k = (decide (1 ≤ k) && a.getLsbD (k - 1)) := by
    rw [BitVec.getLsbD_shiftLeft]
    by_cases hk1 : k < 1
    · simp [hk1, Nat.not_le.mpr hk1]
    · simp [hk, hk1, Nat.le_of_not_lt hk1]
  unfold openBit
  by_cases hpos : p > 0
  · rw [if_pos hpos, getLsbD_insertBits_low (ofInt_pred_add_one (by omega)) hk, hshift]
  · rw [if_neg hpos, hshift, if_neg (by omega)]

/-- Dropping a lower bit moves the higher positions down. -/
theorem dropBit_comm {p q : ℕ} (hpq : p < q) (hq : q < 64) (a : Addr) :
    dropBit (q - 1) (dropBit p a) = dropBit p (dropBit q a) := by
  have hp : p < 64 := hpq.trans hq
  have hq' : q - 1 < 64 := by omega
  apply BitVec.eq_of_getLsbD_eq
  intro k _
  rw [getLsbD_dropBit hq', getLsbD_dropBit hp, getLsbD_dropBit hp, getLsbD_dropBit hp,
    getLsbD_dropBit hq, getLsbD_dropBit hq]
  by_cases hkp : k < p
  · rw [if_pos (by omega), if_pos hkp, if_pos hkp, if_pos (by omega)]
  · by_cases hkq : k < q - 1
    · rw [if_pos hkq, if_neg hkp, if_neg hkp, if_pos (by omega)]
    · rw [if_neg hkq, if_neg (by omega), if_neg hkp, if_neg (by omega)]

/-- Opening a position and dropping it again. -/
theorem dropBit_openBit {p : ℕ} (hp : p < 64) {a : Addr} (htop : a.getLsbD 63 = false) :
    dropBit p (openBit p a) = a := by
  apply BitVec.eq_of_getLsbD_eq
  intro k hk
  rw [getLsbD_dropBit hp]
  split
  · rename_i hkp
    rw [getLsbD_openBit hp _ hk, if_pos hkp]
  · rename_i hkp
    rcases Nat.lt_or_ge (k + 1) 64 with hk1 | hk1
    · rw [getLsbD_openBit hp _ hk1, if_neg (by omega)]
      simp
    · rw [BitVec.getLsbD_of_ge _ (k + 1) hk1]
      have hk63 : k = 63 := by omega
      rw [hk63, htop]

/-! ## Positions in order -/

/-- Drop the bits at the given positions, the last one first. -/
def dropAll (bits : List ℕ) (a : Addr) : Addr := bits.foldr dropBit a

theorem dropAll_concat (bits : List ℕ) (p : ℕ) (a : Addr) :
    dropAll (bits ++ [p]) a = dropAll bits (dropBit p a) := by
  unfold dropAll
  rw [List.foldr_append]
  rfl

theorem openLoop_concat (bits : List ℕ) (p : ℕ) (a : Addr) :
    openLoop (bits ++ [p]) a = openBit p (openLoop bits a) := by
  unfold openLoop
  rw [List.foldl_append]
  rfl

/-- Positions in increasing order, all of them in the word. -/
def Positions (bits : List ℕ) : Prop := bits.Pairwise (· < ·) ∧ ∀ p ∈ bits, p < 64

theorem Positions.concat {bits : List ℕ} {p : ℕ} (h : Positions (bits ++ [p])) :
    Positions bits ∧ p < 64 ∧ ∀ q ∈ bits, q < p := by
  obtain ⟨hsorted, hlt⟩ := h
  obtain ⟨hbits, -, hcross⟩ := List.pairwise_append.mp hsorted
  refine ⟨⟨hbits, fun q hq => hlt q (List.mem_append_left _ hq)⟩, hlt p (by simp), ?_⟩
  intro q hq
  exact hcross q hq p (List.mem_singleton_self p)

/-- Dropping a lower position first. -/
theorem dropAll_dropBit {p : ℕ} {bits : List ℕ} (hbits : ∀ q ∈ bits, p < q ∧ q < 64) (a : Addr) :
    dropAll (bits.map (· - 1)) (dropBit p a) = dropBit p (dropAll bits a) := by
  induction bits with
  | nil => rfl
  | cons q bits ih =>
    obtain ⟨hpq, hq⟩ := hbits q List.mem_cons_self
    show dropBit (q - 1) (dropAll (bits.map (· - 1)) (dropBit p a)) = _
    rw [ih fun q' hq' => hbits q' (List.mem_cons_of_mem q hq')]
    exact dropBit_comm hpq hq _

/-- **The loop of `removeIntlvBits`** drops the positions. -/
theorem removeLoop_eq {bits : List ℕ} {i : ℕ} (hsorted : bits.Pairwise (· < ·))
    (hlt : ∀ p ∈ bits, i ≤ p ∧ p < 64) (a : Addr) :
    removeLoop i bits a = dropAll (bits.map (· - i)) a := by
  induction bits generalizing i a with
  | nil => rfl
  | cons p bits ih =>
    obtain ⟨hip, hp⟩ := hlt p List.mem_cons_self
    obtain ⟨hhead, htail⟩ := List.pairwise_cons.mp hsorted
    have hfirst : (if p > 0 then
        insertBits (a >>> 1) (BitVec.ofInt 32 ((p : ℤ) - i - 1)) 0 a else a >>> 1) =
        dropBit (p - i) a := by
      have hcast : (p : ℤ) - i = ((p - i : ℕ) : ℤ) := (Nat.cast_sub hip).symm
      by_cases hpos : p > 0
      · rw [if_pos hpos, hcast]
        rfl
      · rw [if_neg hpos]
        have hzero : p - i = 0 := by omega
        rw [hzero]
        apply BitVec.eq_of_getLsbD_eq
        intro k hk
        rw [getLsbD_dropBit (by omega), if_neg (Nat.not_lt_zero k),
          BitVec.getLsbD_ushiftRight, Nat.add_comm]
    have hrest : ∀ q ∈ bits.map (· - i), p - i < q ∧ q < 64 := by
      intro q hq
      obtain ⟨q', hq', rfl⟩ := List.mem_map.mp hq
      have hlt' := hhead q' hq'
      have hq64 := (hlt q' (List.mem_cons_of_mem p hq')).2
      omega
    have hmap : bits.map (· - (i + 1)) = (bits.map (· - i)).map (· - 1) := by
      rw [List.map_map]
      rfl
    unfold removeLoop
    rw [hfirst, ih htail (fun q hq => ?_) _, hmap, dropAll_dropBit hrest]
    · rfl
    · have hlt' := hhead q hq
      exact ⟨by omega, (hlt q (List.mem_cons_of_mem p hq)).2⟩

/-! ## Round trips of the positions -/

/-- The words agree outside the given positions. -/
def AgreeOff (bits : List ℕ) (a b : Addr) : Prop :=
  ∀ k < 64, k ∉ bits → a.getLsbD k = b.getLsbD k

/-- Only the dropped bits are lost. -/
theorem openLoop_dropAll {bits : List ℕ} (hpos : Positions bits) (a : Addr) :
    AgreeOff bits (openLoop bits (dropAll bits a)) a := by
  induction bits using List.reverseRecOn generalizing a with
  | nil => exact fun k _ _ => rfl
  | append_singleton bits p ih =>
    obtain ⟨hbits, hp, hlt⟩ := hpos.concat
    rw [dropAll_concat, openLoop_concat]
    intro k hk hnot
    rw [List.mem_append, List.mem_singleton, not_or] at hnot
    obtain ⟨hkbits, hkp⟩ := hnot
    rw [getLsbD_openBit hp _ hk]
    split
    · rename_i hlt'
      rw [ih hbits (dropBit p a) k hk hkbits, getLsbD_dropBit hp, if_pos hlt']
    · rename_i hge
      have hk1 : 1 ≤ k := by omega
      have hnot' : k - 1 ∉ bits := by
        intro hmem
        have := hlt _ hmem
        omega
      rw [decide_eq_true hk1, Bool.true_and, ih hbits (dropBit p a) (k - 1) (by omega) hnot',
        getLsbD_dropBit hp, if_neg (by omega), Nat.sub_add_cancel hk1]

/-- What is at the dropped positions does not matter. -/
theorem dropAll_congr {bits : List ℕ} (hpos : Positions bits) {a b : Addr}
    (hab : AgreeOff bits a b) : dropAll bits a = dropAll bits b := by
  induction bits using List.reverseRecOn generalizing a b with
  | nil =>
    apply BitVec.eq_of_getLsbD_eq
    intro k hk
    exact hab k hk List.not_mem_nil
  | append_singleton bits p ih =>
    obtain ⟨hbits, hp, hlt⟩ := hpos.concat
    rw [dropAll_concat, dropAll_concat]
    apply ih hbits
    intro k hk hnot
    rw [getLsbD_dropBit hp, getLsbD_dropBit hp]
    split
    · rename_i hkp
      apply hab k hk
      rw [List.mem_append, List.mem_singleton, not_or]
      exact ⟨hnot, by omega⟩
    · rename_i hkp
      rcases Nat.lt_or_ge (k + 1) 64 with hk1 | hk1
      · apply hab (k + 1) hk1
        rw [List.mem_append, List.mem_singleton, not_or]
        refine ⟨fun hmem => ?_, by omega⟩
        have := hlt _ hmem
        omega
      · rw [BitVec.getLsbD_of_ge _ _ hk1, BitVec.getLsbD_of_ge _ _ hk1]

/-- No bit is set from position `t` on. -/
def Below (t : ℕ) (a : Addr) : Prop := ∀ k, t ≤ k → a.getLsbD k = false

theorem Below.openBit {t p : ℕ} {a : Addr} (h : Below t a) (hp : p < 64) :
    Below (t + 1) (openBit p a) := by
  intro k hk
  rcases Nat.lt_or_ge k 64 with hk64 | hk64
  · rw [getLsbD_openBit hp _ hk64]
    split
    · exact h k (by omega)
    · rw [h (k - 1) (by omega), Bool.and_false]
  · exact BitVec.getLsbD_of_ge _ _ hk64

theorem Below.openLoop {t : ℕ} {bits : List ℕ} {a : Addr} (h : Below t a) (hpos : Positions bits) :
    Below (t + bits.length) (openLoop bits a) := by
  induction bits using List.reverseRecOn with
  | nil => exact h
  | append_singleton bits p ih =>
    obtain ⟨hbits, hp, -⟩ := hpos.concat
    rw [openLoop_concat, List.length_append, List.length_singleton]
    exact (ih hbits).openBit hp

/-- Opening positions and dropping them, when no bit is shifted out. -/
theorem dropAll_openLoop {bits : List ℕ} (hpos : Positions bits) {a : Addr} {t : ℕ}
    (ha : Below t a) (ht : t + bits.length ≤ 64) : dropAll bits (openLoop bits a) = a := by
  induction bits using List.reverseRecOn with
  | nil => rfl
  | append_singleton bits p ih =>
    obtain ⟨hbits, hp, -⟩ := hpos.concat
    rw [List.length_append, List.length_singleton] at ht
    have htop := ha.openLoop hbits 63 (by omega)
    rw [openLoop_concat, dropAll_concat, dropBit_openBit hp htop]
    exact ih hbits (by omega)

/-- Every dropped position below `t` frees a place there. -/
theorem Below.dropAll {t : ℕ} {bits : List ℕ} {a : Addr} (h : Below t a) (hpos : Positions bits)
    (hlt : ∀ p ∈ bits, p < t) : Below (t - bits.length) (dropAll bits a) := by
  induction bits using List.reverseRecOn generalizing t a with
  | nil => exact h
  | append_singleton bits p ih =>
    obtain ⟨hbits, hp, hlast⟩ := hpos.concat
    have hpt := hlt p (by simp)
    have hdrop : Below (t - 1) (dropBit p a) := by
      intro k hk
      rw [getLsbD_dropBit hp, if_neg (by omega)]
      exact h (k + 1) (by omega)
    have hlt' : ∀ q ∈ bits, q < t - 1 := by
      intro q hq
      have := hlast q hq
      omega
    have hrec := ih hdrop hbits hlt'
    rw [dropAll_concat, List.length_append, List.length_singleton]
    intro k hk
    exact hrec k (by omega)

/-! ## The masks of a range -/

/-- What the round trips are about: non-empty, non-zero, pairwise disjoint masks and a match
value that fits. -/
structure Interleaved (r : AddrRange) : Prop where
  nonempty : r.masks ≠ []
  nonzero : ∀ m ∈ r.masks, m ≠ 0
  disjoint : r.masks.Pairwise fun m m' => m &&& m' = 0
  fits : r.intlvMatch.toNat < 2 ^ r.masks.length

/-- Disjoint masks share no bit. -/
theorem getLsbD_of_disjoint {m m' : Addr} (h : m &&& m' = 0) {k : ℕ} (hk : m.getLsbD k = true) :
    m'.getLsbD k = false := by
  have hbit := congrArg (fun v : Addr => v.getLsbD k) h
  simp only [BitVec.getLsbD_and, hk, Bool.true_and] at hbit
  rw [hbit]
  exact BitVec.getLsbD_zero

theorem and_comm_zero {m m' : Addr} (h : m &&& m' = 0) : m' &&& m = 0 := by
  rw [BitVec.and_comm]
  exact h

section Range

variable {r : AddrRange}

/-- Masks at different places are disjoint. -/
theorem Interleaved.disjoint_of_ne (hr : Interleaved r) {i j : ℕ} {m m' : Addr}
    (hi : r.masks[i]? = some m) (hj : r.masks[j]? = some m') (hij : i ≠ j) : m &&& m' = 0 := by
  obtain ⟨hi', rfl⟩ := List.getElem?_eq_some_iff.mp hi
  obtain ⟨hj', rfl⟩ := List.getElem?_eq_some_iff.mp hj
  rcases Nat.lt_or_gt_of_ne hij with h | h
  · exact List.pairwise_iff_getElem.mp hr.disjoint i j hi' hj' h
  · exact and_comm_zero (List.pairwise_iff_getElem.mp hr.disjoint j i hj' hi' h)

theorem Interleaved.nodup_ctz (hr : Interleaved r) : (r.masks.map ctz64).Nodup := by
  unfold List.Nodup
  rw [List.pairwise_map]
  apply hr.disjoint.imp_of_mem
  intro m m' hm hm' hdisj heq
  have hbit := getLsbD_of_disjoint hdisj (getLsbD_ctz64 (hr.nonzero m hm))
  rw [heq, getLsbD_ctz64 (hr.nonzero m' hm')] at hbit
  cases hbit

theorem mem_masksLsb {k : ℕ} : k ∈ r.masksLsb ↔ ∃ m ∈ r.masks, ctz64 m = k := by
  unfold AddrRange.masksLsb
  rw [List.mem_insertionSort, List.mem_map]

theorem length_masksLsb : r.masksLsb.length = r.masks.length := by
  unfold AddrRange.masksLsb
  rw [List.length_insertionSort, List.length_map]

theorem Interleaved.positions (hr : Interleaved r) : Positions r.masksLsb := by
  constructor
  · have hsorted : r.masksLsb.Pairwise (· ≤ ·) := List.pairwise_insertionSort _ _
    have hnodup : r.masksLsb.Nodup := (List.perm_insertionSort _ _).nodup_iff.mpr hr.nodup_ctz
    exact (hsorted.and hnodup).imp fun h => lt_of_le_of_ne h.1 h.2
  · intro p hp
    obtain ⟨m, hm, rfl⟩ := mem_masksLsb.mp hp
    exact ctz64_lt (hr.nonzero m hm)

/-- **`removeIntlvBits`** drops the lowest bit of every mask. -/
theorem Interleaved.removeIntlvBits_eq (hr : Interleaved r) (a : Addr) :
    r.removeIntlvBits a = dropAll r.masksLsb a := by
  have hpos := hr.positions
  unfold AddrRange.removeIntlvBits
  rw [if_pos (show r.interleaved = true from decide_eq_true hr.nonempty),
    removeLoop_eq hpos.1 (fun p hp => ⟨Nat.zero_le p, hpos.2 p hp⟩)]
  simp

/-! ## Setting the interleaving bits -/

theorem getLsbD_notBit {lsb : ℕ} (hlsb : lsb < 32) {k : ℕ} (hk : k < 64) :
    (notBit lsb).getLsbD k = (decide (k ≠ lsb) && (decide (lsb ≠ 31) || decide (k < 32))) := by
  unfold notBit
  rw [BitVec.getLsbD_signExtend]
  have hone : ∀ j < 32, (1#32 <<< lsb).getLsbD j = decide (j = lsb) := by
    intro j hj
    rw [← BitVec.twoPow_eq, BitVec.getLsbD_twoPow]
    simp [hlsb, eq_comm]
  have hmsb : (~~~(1#32 <<< lsb)).msb = decide (lsb ≠ 31) := by
    rw [BitVec.msb_eq_getLsbD_last, BitVec.getLsbD_not, hone 31 (by decide)]
    by_cases h : lsb = 31
    · simp [h]
    · simp [h, Ne.symm h]
  rw [hmsb]
  by_cases hk32 : k < 32
  · rw [if_pos hk32, BitVec.getLsbD_not, hone k hk32]
    simp [hk, hk32]
  · have hne : k ≠ lsb := by omega
    simp [hk, hk32, hne]

/-- The bit that the second loop computes for a mask. -/
def intlvBitOf (intlvMatch : BitVec 8) (i : ℕ) (m a : Addr) : Bool :=
  intlvMatch.getLsbD i ^^ parity (a &&& m &&& notBit (ctz64 m))

/-- The lowest bit of the exclusive or of a bit and a count. -/
theorem getLsbD_zero_xor (b : Bool) (v : Addr) :
    (BitVec.ofNat 64 b.toNat ^^^ BitVec.ofNat 64 (popCount v)).getLsbD 0 = (b ^^ parity v) := by
  rw [BitVec.getLsbD_xor, BitVec.getLsbD_ofNat, BitVec.getLsbD_ofNat]
  unfold parity
  simp only [Nat.testBit_zero]
  cases b <;> simp

/-- **The second loop of `addIntlvBits`**: every mask determines its lowest bit, the other
bits stay. -/
theorem setLoop_eq (intlvMatch : BitVec 8) {masks : List Addr} {i : ℕ} {a : Addr}
    (hlen : i + masks.length ≤ 32) (hlsb : ∀ m ∈ masks, ctz64 m < 32)
    (hnz : ∀ m ∈ masks, m ≠ 0) (hdisj : masks.Pairwise fun m m' => m &&& m' = 0) :
    ∃ b, setLoop intlvMatch i masks a = .ok b ∧
      (∀ k < 64, (∀ m ∈ masks, ctz64 m ≠ k) → b.getLsbD k = a.getLsbD k) ∧
      ∀ j m, masks[j]? = some m → b.getLsbD (ctz64 m) = intlvBitOf intlvMatch (i + j) m a := by
  induction masks generalizing i a with
  | nil => exact ⟨a, rfl, fun _ _ _ => rfl, fun j m hm => by cases hm⟩
  | cons m masks ih =>
    rw [List.length_cons] at hlen
    obtain ⟨hhead, htail⟩ := List.pairwise_cons.mp hdisj
    have hm32 := hlsb m List.mem_cons_self
    have hm0 := hnz m List.mem_cons_self
    have hm64 := ctz64_lt hm0
    set a' := insertBits a (BitVec.ofNat 32 (ctz64 m)) (BitVec.ofNat 32 (ctz64 m))
      (BitVec.ofNat 64 (intlvMatch.getLsbD i).toNat ^^^
        BitVec.ofNat 64 (popCount (a &&& m &&& notBit (ctz64 m)))) with ha'
    have hbit : ∀ k < 64, a'.getLsbD k =
        if k = ctz64 m then intlvBitOf intlvMatch i m a else a.getLsbD k := by
      intro k hk
      rw [ha', getLsbD_insertBits_one hm64 hk, getLsbD_zero_xor]
      rfl
    obtain ⟨b, hb, hkeep, hset⟩ := ih (i := i + 1) (a := a') (by omega)
      (fun m' hm' => hlsb m' (List.mem_cons_of_mem m hm'))
      (fun m' hm' => hnz m' (List.mem_cons_of_mem m hm')) htail
    have hne : ∀ m' ∈ masks, ctz64 m' ≠ ctz64 m := by
      intro m' hm' heq
      have hbit' := getLsbD_of_disjoint (hhead m' hm') (getLsbD_ctz64 hm0)
      rw [← heq, getLsbD_ctz64 (hnz m' (List.mem_cons_of_mem m hm'))] at hbit'
      cases hbit'
    refine ⟨b, ?_, ?_, ?_⟩
    · unfold setLoop
      rw [if_pos ⟨by omega, hm32⟩]
      exact hb
    · intro k hk hnot
      rw [hkeep k hk fun m' hm' => hnot m' (List.mem_cons_of_mem m hm'), hbit k hk,
        if_neg (hnot m List.mem_cons_self).symm]
    · intro j m' hm'
      cases j with
      | zero =>
        obtain rfl := Option.some.inj hm'
        rw [hkeep _ hm64 hne, hbit _ hm64, if_pos rfl, Nat.add_zero]
      | succ j =>
        have hmem : m' ∈ masks := List.mem_of_getElem? hm'
        -- the bit just set does not belong to a later mask
        have hsame : a' &&& m' = a &&& m' := by
          apply BitVec.eq_of_getLsbD_eq
          intro k hk
          rw [BitVec.getLsbD_and, BitVec.getLsbD_and, hbit k hk]
          split
          · rename_i hkm
            rw [hkm, getLsbD_of_disjoint (hhead m' hmem) (getLsbD_ctz64 hm0), Bool.and_false,
              Bool.and_false]
          · rfl
        rw [hset j m' hm']
        unfold intlvBitOf
        rw [hsame, Nat.add_assoc, Nat.add_comm 1 j]

theorem setLoop_error {intlvMatch : BitVec 8} {masks : List Addr} {i : ℕ} {a : Addr}
    (h : ∃ m ∈ masks, 32 ≤ ctz64 m) : setLoop intlvMatch i masks a = .error .undefinedShift := by
  induction masks generalizing i a with
  | nil =>
    obtain ⟨m, hm, -⟩ := h
    cases hm
  | cons m masks ih =>
    unfold setLoop
    split
    · rename_i hok
      obtain ⟨m', hm', hge⟩ := h
      rcases List.mem_cons.mp hm' with rfl | hm'
      · omega
      · exact ih ⟨m', hm', hge⟩
    · rfl

/-! ## The range as a whole -/

/-- The masks for which `~(1 << lsb)` clears the lowest bit of the mask and no other bit
of it. -/
def Clears (m : Addr) : Prop := ctz64 m < 31 ∨ m = 1#64 <<< 31

theorem getLsbD_bit31 (k : ℕ) : (1#64 <<< 31).getLsbD k = decide (k = 31) := by
  rw [← BitVec.twoPow_eq, BitVec.getLsbD_twoPow]
  simp [eq_comm]

theorem Clears.lt {m : Addr} (h : Clears m) : ctz64 m < 32 := by
  rcases h with h | rfl
  · omega
  · have hle : ctz64 (1#64 <<< 31) ≤ 31 := by
      apply ctz64_le_of_getLsbD
      rw [getLsbD_bit31]
      rfl
    omega

/-- What is left of a mask without its lowest bit. -/
theorem Clears.getLsbD {m : Addr} (h : Clears m) (a : Addr) {k : ℕ} (hk : k < 64) :
    (a &&& m &&& notBit (ctz64 m)).getLsbD k =
      (a.getLsbD k && m.getLsbD k && decide (k ≠ ctz64 m)) := by
  rw [BitVec.getLsbD_and, BitVec.getLsbD_and, getLsbD_notBit h.lt hk]
  rcases h with h | hbit
  · rw [decide_eq_true (show ctz64 m ≠ 31 by omega), Bool.true_or, Bool.and_true]
  · by_cases hk31 : m.getLsbD k = true
    · have hlt : k < 32 := by
        rw [hbit, getLsbD_bit31, decide_eq_true_eq] at hk31
        omega
      rw [decide_eq_true hlt, Bool.or_true, Bool.and_true]
    · rw [Bool.eq_false_of_not_eq_true hk31, Bool.and_false, Bool.false_and, Bool.false_and]

/-- The exclusive or of a mask, with its lowest bit apart. -/
theorem Clears.parity {m : Addr} (h : Clears m) (hm : m ≠ 0) (a : Addr) :
    parity (a &&& m) = (a.getLsbD (ctz64 m) ^^ parity (a &&& m &&& notBit (ctz64 m))) := by
  have hlt := ctz64_lt hm
  have hsplit := parity_split (v := a &&& m) (w := a &&& m &&& notBit (ctz64 m)) hlt
    (by rw [h.getLsbD a hlt]; simp)
    (fun k hk hne => by rw [h.getLsbD a hk, BitVec.getLsbD_and]; simp [hne])
  rw [hsplit, BitVec.getLsbD_and, getLsbD_ctz64 hm, Bool.and_true]

/-- Words that agree outside the lowest bits of the masks agree on the rest of each
mask. -/
theorem Interleaved.masked_congr (hr : Interleaved r) {a b : Addr}
    (hab : AgreeOff r.masksLsb a b) {m : Addr} (hm : m ∈ r.masks) (hclear : Clears m) :
    a &&& m &&& notBit (ctz64 m) = b &&& m &&& notBit (ctz64 m) := by
  have hm0 := hr.nonzero m hm
  apply BitVec.eq_of_getLsbD_eq
  intro k hk
  rw [hclear.getLsbD a hk, hclear.getLsbD b hk]
  by_cases hmk : m.getLsbD k = true
  · by_cases hkm : k = ctz64 m
    · simp [hkm]
    · -- a bit of the mask is the lowest bit of no other mask
      have hnot : k ∉ r.masksLsb := by
        intro hmem
        obtain ⟨m', hm', rfl⟩ := mem_masksLsb.mp hmem
        obtain ⟨i, hi⟩ := List.mem_iff_getElem?.mp hm
        obtain ⟨j, hj⟩ := List.mem_iff_getElem?.mp hm'
        have hij : i ≠ j := by
          rintro rfl
          rw [hi] at hj
          exact hkm (by rw [Option.some.inj hj])
        have hbit := getLsbD_of_disjoint (hr.disjoint_of_ne hi hj hij) hmk
        rw [getLsbD_ctz64 (hr.nonzero m' hm')] at hbit
        cases hbit
      rw [hab k hk hnot]
  · rw [Bool.eq_false_of_not_eq_true hmk]
    simp

theorem Interleaved.length_le (hr : Interleaved r) (hlsb : ∀ m ∈ r.masks, ctz64 m < 32) :
    r.masks.length ≤ 32 := by
  have hsub : (r.masks.map ctz64).toFinset ⊆ Finset.range 32 := by
    intro k hk
    obtain ⟨m, hm, rfl⟩ := List.mem_map.mp (List.mem_toFinset.mp hk)
    exact Finset.mem_range.mpr (hlsb m hm)
  have hcard := Finset.card_le_card hsub
  rw [List.toFinset_card_of_nodup hr.nodup_ctz, List.length_map, Finset.card_range] at hcard
  exact hcard

/-- **`addIntlvBits`**: the positions are opened, and every mask determines its lowest
bit. -/
theorem Interleaved.addIntlvBits_eq (hr : Interleaved r) (hlsb : ∀ m ∈ r.masks, ctz64 m < 32)
    (x : Addr) :
    ∃ y, r.addIntlvBits x = .ok y ∧ AgreeOff r.masksLsb y (openLoop r.masksLsb x) ∧
      ∀ j m, r.masks[j]? = some m →
        y.getLsbD (ctz64 m) = intlvBitOf r.intlvMatch j m (openLoop r.masksLsb x) := by
  have hlen := hr.length_le hlsb
  obtain ⟨y, hy, hkeep, hset⟩ := setLoop_eq r.intlvMatch (i := 0)
    (a := openLoop r.masksLsb x) (by omega) hlsb hr.nonzero hr.disjoint
  refine ⟨y, ?_, ?_, ?_⟩
  · unfold AddrRange.addIntlvBits
    rw [if_pos (show r.interleaved = true from decide_eq_true hr.nonempty)]
    exact hy
  · intro k hk hnot
    apply hkeep k hk
    intro m hm heq
    exact hnot (mem_masksLsb.mpr ⟨m, hm, heq⟩)
  · intro j m hm
    rw [hset j m hm, Nat.zero_add]

/-! ## Round trips -/

/-- Removing and adding the interleaving bits are inverse to each other: on the addresses
of the range, and on the words whose highest bits are free for the added ones. -/
def RoundTrips (r : AddrRange) : Prop :=
  (∀ a, r.contains a = .ok true → r.addIntlvBits (r.removeIntlvBits a) = .ok a) ∧
    ∀ x, Below (64 - r.masks.length) x → ∃ y, r.addIntlvBits x = .ok y ∧
      r.removeIntlvBits y = x ∧ r.sel y = .ok (r.intlvMatch.setWidth 32)

theorem Interleaved.remove_add (hr : Interleaved r) (hclear : ∀ m ∈ r.masks, Clears m) {a : Addr}
    (ha : r.contains a = .ok true) : r.addIntlvBits (r.removeIntlvBits a) = .ok a := by
  have hselects := (selects_of_sel (contains_iff.mp ha).2.2).2
  rw [hr.removeIntlvBits_eq]
  obtain ⟨y, hy, hoff, hset⟩ := hr.addIntlvBits_eq (fun m hm => (hclear m hm).lt)
    (dropAll r.masksLsb a)
  have hopen := openLoop_dropAll hr.positions a
  rw [hy, Except.ok.injEq]
  apply BitVec.eq_of_getLsbD_eq
  intro k hk
  by_cases hmem : k ∈ r.masksLsb
  · obtain ⟨m, hm, rfl⟩ := mem_masksLsb.mp hmem
    obtain ⟨j, hj⟩ := List.mem_iff_getElem?.mp hm
    have hpar := (hclear m hm).parity (hr.nonzero m hm) a
    rw [hset j m hj, intlvBitOf, hr.masked_congr hopen hm (hclear m hm), ← hselects j m hj, hpar,
      Bool.xor_assoc, Bool.xor_self, Bool.xor_false]
  · rw [hoff k hk hmem, hopen k hk hmem]

theorem Interleaved.add_remove (hr : Interleaved r) (hclear : ∀ m ∈ r.masks, Clears m) {x : Addr}
    (hx : Below (64 - r.masks.length) x) :
    ∃ y, r.addIntlvBits x = .ok y ∧ r.removeIntlvBits y = x ∧
      r.sel y = .ok (r.intlvMatch.setWidth 32) := by
  have hlsb : ∀ m ∈ r.masks, ctz64 m < 32 := fun m hm => (hclear m hm).lt
  have hlen := hr.length_le hlsb
  obtain ⟨y, hy, hoff, hset⟩ := hr.addIntlvBits_eq hlsb x
  refine ⟨y, hy, ?_, ?_⟩
  · rw [hr.removeIntlvBits_eq, dropAll_congr hr.positions hoff]
    apply dropAll_openLoop hr.positions hx
    rw [length_masksLsb]
    omega
  · apply sel_of_selects hlen hr.fits
    intro j m hj
    have hm := List.mem_of_getElem? hj
    rw [(hclear m hm).parity (hr.nonzero m hm) y, hset j m hj, intlvBitOf,
      hr.masked_congr hoff hm (hclear m hm), Bool.xor_assoc, Bool.xor_self, Bool.xor_false]

/-- A mask with bit 31 as its lowest bit and a further bit: the selector of an expanded
address can be wrong. -/
theorem Interleaved.not_add_remove (hr : Interleaved r) (hlsb : ∀ m ∈ r.masks, ctz64 m < 32)
    {m : Addr} (hm : m ∈ r.masks) (hctz : ctz64 m = 31) (hmore : m ≠ 1#64 <<< 31) :
    ∃ x, Below (64 - r.masks.length) x ∧ ∀ y, r.addIntlvBits x = .ok y →
      r.sel y ≠ .ok (r.intlvMatch.setWidth 32) := by
  have hm0 := hr.nonzero m hm
  -- a further bit of the mask
  obtain ⟨k, hk31, hmk⟩ : ∃ k, k ≠ 31 ∧ m.getLsbD k = true := by
    by_contra hnone
    push Not at hnone
    apply hmore
    apply BitVec.eq_of_getLsbD_eq
    intro k _
    rw [getLsbD_bit31]
    by_cases hk : k = 31
    · rw [hk, ← hctz, getLsbD_ctz64 hm0, decide_eq_true rfl]
    · rw [Bool.eq_false_of_not_eq_true (hnone k hk), decide_eq_false hk]
  have hklt : 31 < k := by
    have := ctz64_le_of_getLsbD hmk
    omega
  have hk64 : k < 64 := BitVec.lt_of_getLsbD hmk
  -- the address with this bit alone
  have hpow : ∀ i, (1#64 <<< k).getLsbD i = decide (i = k) := by
    intro i
    rw [← BitVec.twoPow_eq, BitVec.getLsbD_twoPow]
    simp [hk64, eq_comm]
  have hbelow : Below 64 (1#64 <<< k) := fun i hi => BitVec.getLsbD_of_ge _ _ hi
  refine ⟨dropAll r.masksLsb (1#64 <<< k), ?_, ?_⟩
  · rw [← length_masksLsb]
    exact hbelow.dropAll hr.positions hr.positions.2
  · intro y hy hsel
    obtain ⟨j, hj⟩ := List.mem_iff_getElem?.mp hm
    have hpar := (selects_of_sel hsel).2 j m hj
    obtain ⟨y', hy', hoff, hset⟩ := hr.addIntlvBits_eq hlsb (dropAll r.masksLsb (1#64 <<< k))
    obtain rfl := Except.ok.inj (hy.symm.trans hy')
    have hopen := openLoop_dropAll hr.positions (1#64 <<< k)
    -- all bits of the mask are lost in `masked`
    have hzero : openLoop r.masksLsb (dropAll r.masksLsb (1#64 <<< k)) &&& m &&&
        notBit (ctz64 m) = 0 := by
      apply BitVec.eq_of_getLsbD_eq
      intro i hi
      have hz : (0 : Addr).getLsbD i = false := BitVec.getLsbD_zero
      rw [hz, BitVec.getLsbD_and, BitVec.getLsbD_and, getLsbD_notBit (hlsb m hm) hi, hctz]
      by_cases hmi : m.getLsbD i = true
      · have := ctz64_le_of_getLsbD hmi
        rw [hctz] at this
        by_cases hi31 : i = 31
        · simp [hi31]
        · have hnot : ¬i < 32 := by omega
          simp [hnot]
      · rw [Bool.eq_false_of_not_eq_true hmi]
        simp
    have hlow : y.getLsbD 31 = r.intlvMatch.getLsbD j := by
      have hbit := hset j m hj
      rw [hctz, intlvBitOf, hzero] at hbit
      rw [hbit]
      have hpz : parity (0 : Addr) = false := by decide
      rw [hpz, Bool.xor_false]
    have hmask : ∀ i < 64, i ≠ 31 → m.getLsbD i = true → y.getLsbD i = decide (i = k) := by
      intro i hi hi31 hmi
      have hnot : i ∉ r.masksLsb := by
        intro hmem
        obtain ⟨m', hm', rfl⟩ := mem_masksLsb.mp hmem
        obtain ⟨j', hj'⟩ := List.mem_iff_getElem?.mp hm'
        have hne : j ≠ j' := by
          rintro rfl
          rw [hj] at hj'
          rw [← Option.some.inj hj'] at hi31
          exact hi31 hctz
        have hbit := getLsbD_of_disjoint (hr.disjoint_of_ne hj hj' hne) hmi
        rw [getLsbD_ctz64 (hr.nonzero m' hm')] at hbit
        cases hbit
      rw [hoff i hi hnot, hopen i hi hnot, hpow]
    have hsplit := parity_split (v := y &&& m) (w := 1#64 <<< k) (p := 31) (by decide)
      (by rw [hpow, decide_eq_false (by omega)]) (fun i hi hi31 => by
        rw [BitVec.getLsbD_and, hpow]
        by_cases hmi : m.getLsbD i = true
        · rw [hmask i hi hi31 hmi, hmi, Bool.and_true]
        · rw [Bool.eq_false_of_not_eq_true hmi, Bool.and_false, eq_comm, decide_eq_false_iff_not]
          rintro rfl
          exact hmi hmk)
    have hone : parity (1#64 <<< k) = true := by
      rw [parity_split (w := 0) hk64 BitVec.getLsbD_zero (fun i _ hik => by
        rw [hpow, decide_eq_false hik]
        exact BitVec.getLsbD_zero.symm), hpow]
      simp
      decide
    rw [hsplit, BitVec.getLsbD_and, hlow, ← hctz, getLsbD_ctz64 hm0, hone, Bool.and_true] at hpar
    cases hmatch : r.intlvMatch.getLsbD j <;> rw [hmatch] at hpar <;> cases hpar

/-- **The round trips hold exactly when every mask starts below bit 31 or is bit 31
alone.** -/
theorem roundTrips_iff (hr : Interleaved r) : RoundTrips r ↔ ∀ m ∈ r.masks, Clears m := by
  constructor
  · rintro ⟨-, hexpand⟩ m hm
    have hlsb : ∀ m ∈ r.masks, ctz64 m < 32 := by
      intro m' hm'
      by_contra hge
      obtain ⟨y, hy, -⟩ := hexpand 0 fun k _ => BitVec.getLsbD_zero
      unfold AddrRange.addIntlvBits at hy
      rw [if_pos (show r.interleaved = true from decide_eq_true hr.nonempty),
        setLoop_error ⟨m', hm', by omega⟩] at hy
      cases hy
    by_contra hnot
    unfold Clears at hnot
    rw [not_or] at hnot
    have hctz : ctz64 m = 31 := by
      have := hlsb m hm
      omega
    obtain ⟨x, hx, hbad⟩ := hr.not_add_remove hlsb hm hctz hnot.2
    obtain ⟨y, hy, -, hsel⟩ := hexpand x hx
    exact hbad y hy hsel
  · intro hclear
    exact ⟨fun a ha => hr.remove_add hclear ha, fun x hx => hr.add_remove hclear hx⟩

end Range

/-- Four channels that are selected by bits 6 and 7, the lower one hashed with bit 40. -/
def fourChannels (i : BitVec 8) : AddrRange :=
  ⟨0, 0x20000000000, [0x10000000040, 0x80], i⟩

theorem mem_fourChannels {i : BitVec 8} {m : Addr} (hm : m ∈ (fourChannels i).masks) :
    m = 0x10000000040 ∨ m = 0x80 := by
  rcases List.mem_cons.mp hm with h | hm
  · exact .inl h
  · exact .inr (List.mem_singleton.mp hm)

theorem roundTrips_fourChannels : RoundTrips (fourChannels 2) := by
  have hr : Interleaved (fourChannels 2) := by
    refine ⟨by decide, ?_, by decide +kernel, by decide +kernel⟩
    intro m hm
    rcases mem_fourChannels hm with h | h <;> rw [h] <;> decide +kernel
  refine (roundTrips_iff hr).mpr ?_
  intro m hm
  left
  rcases mem_fourChannels hm with h | h <;> rw [h] <;> decide +kernel

/-- A mask of bits 31 and 33: the address with both bits set loses bit 31. -/
theorem bit31_lost :
    ∃ r a, Interleaved r ∧ r.contains a = .ok true ∧
      r.addIntlvBits (r.removeIntlvBits a) = .ok 0x200000000 ∧ a = 0x280000000 := by
  refine ⟨⟨0, 0x400000000, [0x280000000], 0⟩, 0x280000000,
    ⟨by decide, ?_, by decide +kernel, by decide +kernel⟩, by decide +kernel, by decide +kernel, rfl⟩
  intro m hm
  rw [List.mem_singleton.mp hm]
  decide +kernel

end Gem5.Base
