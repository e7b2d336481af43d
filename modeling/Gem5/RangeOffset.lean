/-
# Offsets in a range

`getOffset` (`base/addr_range.hh`) gives the addresses of a range consecutive numbers: it drops the
lowest bit of every mask.  Two addresses of the range differ first, from the top, in a bit that
stays, so the order stays; and every number below the size of the range is the offset of an address,
whose dropped bits are found one after the other, from the highest mask down.

This needs that no two masks have their lowest bit in common.
-/
import Gem5.Interleave

namespace Gem5.Base

open Runs

/-- `getOffset(a)`: `MaxAddr` for an address that is not in the interval. -/
def AddrRange.getOffset (r : AddrRange) (a : Addr) : Addr :=
  if r.start ≤ a ∧ a < r.end_ then
    if r.interleaved then r.removeIntlvBits a - r.removeIntlvBits r.start else a - r.start
  else BitVec.allOnes 64

/-! ## The first difference of two words -/

/-- The words differ in bit `k`, and in no bit above it. -/
structure Above (k : ℕ) (a b : Addr) : Prop where
  left : a.getLsbD k = false
  right : b.getLsbD k = true
  same : ∀ j, k < j → a.getLsbD j = b.getLsbD j

theorem Above.lt {k : ℕ} {a b : Addr} (h : Above k a b) : a < b :=
  Nat.lt_of_testBit k h.left h.right h.same

/-- The greater word has the highest bit in which they differ. -/
theorem exists_above {a b : Addr} (hab : a < b) : ∃ k < 64, Above k a b := by
  have hne : a.toNat ^^^ b.toNat ≠ 0 := fun h => (Nat.ne_of_lt hab) (Nat.xor_eq_zero_iff.mp h)
  obtain ⟨k, hk, hhigh⟩ := Nat.exists_most_significant_bit hne
  rw [Nat.testBit_xor] at hk
  have hsame : ∀ j, k < j → a.getLsbD j = b.getLsbD j := by
    intro j hj
    have hbit := hhigh j hj
    rw [Nat.testBit_xor] at hbit
    exact bne_eq_false_iff_eq.mp hbit
  cases ha : a.getLsbD k with
  | false =>
    have hb : b.getLsbD k = true := by
      rw [show a.toNat.testBit k = false from ha, Bool.false_xor] at hk
      exact hk
    exact ⟨k, BitVec.lt_of_getLsbD hb, ha, hb, hsame⟩
  | true =>
    have hb : b.getLsbD k = false := by
      rw [show a.toNat.testBit k = true from ha, Bool.true_xor, Bool.not_eq_true'] at hk
      exact hk
    have hba : b < a := Above.lt ⟨hb, ha, fun j hj => (hsame j hj).symm⟩
    exact absurd hab (Nat.lt_asymm hba)

/-- Dropping another bit keeps the first difference. -/
theorem Above.dropBit {k p : ℕ} {a b : Addr} (h : Above k a b) (hp : p < 64) (hne : k ≠ p) :
    Above (if k < p then k else k - 1) (dropBit p a) (dropBit p b) := by
  by_cases hkp : k < p
  · rw [if_pos hkp]
    refine ⟨?_, ?_, fun j hj => ?_⟩
    · rw [getLsbD_dropBit hp, if_pos hkp]
      exact h.left
    · rw [getLsbD_dropBit hp, if_pos hkp]
      exact h.right
    · rw [getLsbD_dropBit hp, getLsbD_dropBit hp, h.same j hj, h.same (j + 1) (by omega)]
  · have hk : k - 1 + 1 = k := by omega
    rw [if_neg hkp]
    refine ⟨?_, ?_, fun j hj => ?_⟩
    · rw [getLsbD_dropBit hp, if_neg (by omega), hk]
      exact h.left
    · rw [getLsbD_dropBit hp, if_neg (by omega), hk]
      exact h.right
    · rw [getLsbD_dropBit hp, getLsbD_dropBit hp, if_neg (by omega), if_neg (by omega),
        h.same (j + 1) (by omega)]

/-- Dropping bits in which the words do not differ first **keeps the order**. -/
theorem Above.dropAll {bits : List ℕ} (hpos : Positions bits) {k : ℕ} {a b : Addr}
    (h : Above k a b) (hk : k ∉ bits) : ∃ k', Above k' (dropAll bits a) (dropAll bits b) := by
  induction bits using List.reverseRecOn generalizing k a b with
  | nil => exact ⟨k, h⟩
  | append_singleton bits p ih =>
    obtain ⟨hbits, hp, hlast⟩ := hpos.concat
    rw [List.mem_append, List.mem_singleton, not_or] at hk
    rw [dropAll_concat, dropAll_concat]
    refine ih hbits (h.dropBit hp hk.2) fun hmem => ?_
    split at hmem
    · exact hk.1 hmem
    · have := hlast _ hmem
      omega

/-! ## The bits above the dropped ones -/

theorem getLsbD_dropAll_high {bits : List ℕ} (hpos : Positions bits) {t k : ℕ}
    (hlt : ∀ p ∈ bits, p < t) (hk : t ≤ k + bits.length) (a : Addr) :
    (dropAll bits a).getLsbD k = a.getLsbD (k + bits.length) := by
  induction bits using List.reverseRecOn generalizing t a with
  | nil => rfl
  | append_singleton bits p ih =>
    obtain ⟨hbits, hp, hlast⟩ := hpos.concat
    have hpt := hlt p (by simp)
    rw [List.length_append, List.length_singleton] at hk ⊢
    rw [dropAll_concat, ih hbits hlast (by omega), getLsbD_dropBit hp, if_neg (by omega)]
    rfl

theorem getLsbD_dropAll_low {bits : List ℕ} (hpos : Positions bits) {t k : ℕ}
    (hlt : ∀ p ∈ bits, p < t) {a : Addr} (ha : ∀ j < t, a.getLsbD j = false)
    (hk : k + bits.length < t) : (dropAll bits a).getLsbD k = false := by
  induction bits using List.reverseRecOn generalizing t a with
  | nil => exact ha k (by simpa using hk)
  | append_singleton bits p ih =>
    obtain ⟨hbits, hp, hlast⟩ := hpos.concat
    have hpt := hlt p (by simp)
    rw [List.length_append, List.length_singleton] at hk
    rw [dropAll_concat]
    refine ih (t := t - 1) hbits (fun q hq => ?_) (fun j hj => ?_) (by omega)
    · have := hlast q hq
      omega
    · rw [getLsbD_dropBit hp]
      split
      · exact ha j (by omega)
      · exact ha (j + 1) (by omega)

theorem Positions.length_le {bits : List ℕ} (hpos : Positions bits) {t : ℕ}
    (hlt : ∀ p ∈ bits, p < t) : bits.length ≤ t := by
  have hnodup : bits.Nodup := hpos.1.imp fun h => Nat.ne_of_lt h
  have hsub : bits ⊆ List.range t := fun p hp => List.mem_range.mpr (hlt p hp)
  have hle := (hnodup.subperm hsub).length_le
  rwa [List.length_range] at hle

/-- **The part above the dropped bits** is shifted down. -/
theorem toNat_dropAll_div {bits : List ℕ} (hpos : Positions bits) {t : ℕ}
    (hlt : ∀ p ∈ bits, p < t) (a : Addr) :
    (dropAll bits a).toNat / 2 ^ (t - bits.length) = a.toNat / 2 ^ t := by
  have hlen := hpos.length_le hlt
  have hshift : dropAll bits a >>> (t - bits.length) = a >>> t := by
    apply BitVec.eq_of_getLsbD_eq
    intro k _
    rw [BitVec.getLsbD_ushiftRight, BitVec.getLsbD_ushiftRight,
      getLsbD_dropAll_high hpos hlt (by omega)]
    congr 1
    omega
  have hnat := congrArg BitVec.toNat hshift
  rw [BitVec.toNat_ushiftRight, BitVec.toNat_ushiftRight, Nat.shiftRight_eq_div_pow,
    Nat.shiftRight_eq_div_pow] at hnat
  exact hnat

/-- A multiple of a power of two has no bits below it. -/
theorem getLsbD_of_dvd {t k : ℕ} {a : Addr} (h : 2 ^ t ∣ a.toNat) (hk : k < t) :
    a.getLsbD k = false := by
  obtain ⟨n, hn⟩ := h
  rw [BitVec.getLsbD, hn, Nat.testBit_two_pow_mul, decide_eq_false (by omega), Bool.false_and]

/-- A word whose bits below `t` are zero is a multiple. -/
theorem dvd_of_getLsbD {t : ℕ} {a : Addr} (h : ∀ j < t, a.getLsbD j = false) : 2 ^ t ∣ a.toNat := by
  apply Nat.dvd_of_mod_eq_zero
  apply Nat.eq_of_testBit_eq
  intro j
  rw [Nat.testBit_mod_two_pow, Nat.zero_testBit]
  by_cases hj : j < t
  · rw [show a.toNat.testBit j = false from h j hj, Bool.and_false]
  · rw [decide_eq_false hj, Bool.false_and]

/-! ## Addresses with a given selector -/

/-- A mask does not see what is below its lowest bit. -/
theorem parity_congr_above {m a b : Addr} (h : ∀ j < 64, ctz64 m ≤ j → a.getLsbD j = b.getLsbD j) :
    parity (a &&& m) = parity (b &&& m) := by
  refine parity_congr fun j hj => ?_
  rw [BitVec.getLsbD_and, BitVec.getLsbD_and]
  by_cases hle : ctz64 m ≤ j
  · rw [h j hj hle]
  · have hnot : m.getLsbD j = false := by
      cases hbit : m.getLsbD j with
      | false => rfl
      | true => exact absurd (ctz64_le_of_getLsbD hbit) hle
    rw [hnot, Bool.and_false, Bool.and_false]

/-- A word with one bit set to a value. -/
def withBit (p : ℕ) (b : Bool) (a : Addr) : Addr :=
  if b then a ||| 1#64 <<< p else a &&& ~~~(1#64 <<< p)

theorem getLsbD_withBit {p : ℕ} (hp : p < 64) (b : Bool) (a : Addr) (j : ℕ) :
    (withBit p b a).getLsbD j = if j = p then b else a.getLsbD j := by
  unfold withBit
  cases b with
  | false =>
    rw [if_neg Bool.false_ne_true, getLsbD_clearBit hp]
    by_cases hj : j = p
    · rw [if_pos hj, decide_eq_false (not_not.mpr hj), Bool.and_false]
    · rw [if_neg hj, decide_eq_true hj, Bool.and_true]
  | true =>
    rw [if_pos rfl, getLsbD_setBit hp]
    by_cases hj : j = p
    · rw [if_pos hj, decide_eq_true hj, Bool.or_true]
    · rw [if_neg hj, decide_eq_false hj, Bool.or_false]

/-- The lowest bit of a mask decides the parity. -/
theorem exists_parity {m : Addr} (hm : m ≠ 0) (a : Addr) (target : Bool) :
    ∃ b, parity (withBit (ctz64 m) b a &&& m) = target := by
  have hp := ctz64_lt hm
  have hparity : ∀ b, parity (withBit (ctz64 m) b a &&& m) =
      (b ^^ parity (withBit (ctz64 m) false a &&& m)) := by
    intro b
    rw [parity_split (w := withBit (ctz64 m) false a &&& m) hp ?_ fun i _ hi => ?_,
      BitVec.getLsbD_and, getLsbD_withBit hp, if_pos rfl, getLsbD_ctz64 hm, Bool.and_true]
    · rw [BitVec.getLsbD_and, getLsbD_withBit hp, if_pos rfl, Bool.false_and]
    · rw [BitVec.getLsbD_and, BitVec.getLsbD_and, getLsbD_withBit hp, getLsbD_withBit hp, if_neg hi,
        if_neg hi]
  refine ⟨target ^^ parity (withBit (ctz64 m) false a &&& m), ?_⟩
  rw [hparity, Bool.xor_assoc, Bool.xor_self, Bool.xor_false]

/-- **Every selector is taken** by a word with given bits outside the lowest bits of the masks. -/
theorem exists_selected {L : List (Addr × Bool)}
    (hsorted : L.Pairwise fun x y => ctz64 x.1 < ctz64 y.1)
    (hnonzero : ∀ x ∈ L, x.1 ≠ 0) (base : Addr) :
    ∃ a, (∀ j, (∀ x ∈ L, ctz64 x.1 ≠ j) → a.getLsbD j = base.getLsbD j) ∧
      ∀ x ∈ L, parity (a &&& x.1) = x.2 := by
  induction L with
  | nil => exact ⟨base, fun _ _ => rfl, fun x hx => absurd hx List.not_mem_nil⟩
  | cons x L ih =>
    obtain ⟨hhead, htail⟩ := List.pairwise_cons.mp hsorted
    have hx := hnonzero x List.mem_cons_self
    have hp := ctz64_lt hx
    obtain ⟨a, hkeep, hparity⟩ := ih htail fun y hy => hnonzero y (List.mem_cons_of_mem x hy)
    obtain ⟨b, hb⟩ := exists_parity hx a x.2
    refine ⟨withBit (ctz64 x.1) b a, fun j hj => ?_, fun y hy => ?_⟩
    · rw [getLsbD_withBit hp, if_neg (hj x List.mem_cons_self).symm]
      exact hkeep j fun y hy => hj y (List.mem_cons_of_mem x hy)
    · rcases List.mem_cons.mp hy with rfl | hy
      · exact hb
      · -- the higher masks do not see the bit
        rw [← hparity y hy]
        refine parity_congr_above fun j _ hj => ?_
        have hlt := hhead y hy
        rw [getLsbD_withBit hp, if_neg (by omega)]

/-! ## Ranges -/

/-- Masks with different lowest bits, a match value that fits them, and a selector that fits an
`int`. -/
structure Separated (r : AddrRange) : Prop where
  nonzero : ∀ m ∈ r.masks, m ≠ 0
  nodup : (r.masks.map ctz64).Nodup
  fits : r.intlvMatch.toNat < 2 ^ r.masks.length
  few : r.masks.length ≤ 32

/-- The interval starts and ends above every interleaving bit. -/
def Aligned (r : AddrRange) : Prop :=
  ∀ m ∈ r.masks, 2 ^ (ctz64 m + 1) ∣ r.start.toNat ∧ 2 ^ (ctz64 m + 1) ∣ r.end_.toNat

variable {r : AddrRange}

theorem Separated.positions (hr : Separated r) : Positions r.masksLsb := by
  constructor
  · have hsorted : r.masksLsb.Pairwise (· ≤ ·) := List.pairwise_insertionSort _ _
    have hnodup : r.masksLsb.Nodup := (List.perm_insertionSort _ _).nodup_iff.mpr hr.nodup
    exact (hsorted.and hnodup).imp fun h => lt_of_le_of_ne h.1 h.2
  · intro p hp
    obtain ⟨m, hm, rfl⟩ := mem_masksLsb.mp hp
    exact ctz64_lt (hr.nonzero m hm)

/-- `removeIntlvBits` drops the lowest bits of the masks. -/
theorem Separated.removeIntlvBits_eq (hr : Separated r) (a : Addr) :
    r.removeIntlvBits a = dropAll r.masksLsb a := by
  have hpos := hr.positions
  unfold AddrRange.removeIntlvBits
  by_cases hmasks : r.masks = []
  · have hnil : r.masksLsb = [] := by
      apply List.eq_nil_of_length_eq_zero
      rw [length_masksLsb, hmasks, List.length_nil]
    rw [if_neg (by simp [AddrRange.interleaved, hmasks]), hnil]
    rfl
  · rw [if_pos (show r.interleaved = true from decide_eq_true hmasks),
      removeLoop_eq hpos.1 (fun p hp => ⟨Nat.zero_le p, hpos.2 p hp⟩)]
    simp

/-- The place above the interleaving bits. -/
theorem Separated.exists_top (hr : Separated r) (hal : Aligned r) :
    ∃ t ≤ 64, (∀ p ∈ r.masksLsb, p < t) ∧ 2 ^ t ∣ r.start.toNat ∧ 2 ^ t ∣ r.end_.toNat := by
  by_cases hmasks : r.masks = []
  · refine ⟨0, Nat.zero_le _, fun p hp => ?_, one_dvd _, one_dvd _⟩
    obtain ⟨m, hm, -⟩ := mem_masksLsb.mp hp
    rw [hmasks] at hm
    cases hm
  · have hne : r.masks.toFinset.Nonempty := by
      rw [List.toFinset_nonempty_iff]
      exact hmasks
    obtain ⟨m, hm, hmax⟩ := Finset.exists_max_image r.masks.toFinset ctz64 hne
    rw [List.mem_toFinset] at hm
    refine ⟨ctz64 m + 1, ctz64_lt (hr.nonzero m hm), fun p hp => ?_, (hal m hm).1, (hal m hm).2⟩
    obtain ⟨m', hm', rfl⟩ := mem_masksLsb.mp hp
    exact Nat.lt_succ_of_le (hmax m' (List.mem_toFinset.mpr hm'))

/-- **Different addresses of a range** differ first in a bit that is not dropped. -/
theorem Separated.not_mem_of_above (hr : Separated r) {a b : Addr} {k : ℕ} (hk : k < 64)
    (ha : r.Selects a) (hb : r.Selects b) (h : Above k a b) : k ∉ r.masksLsb := by
  intro hmem
  obtain ⟨m, hm, rfl⟩ := mem_masksLsb.mp hmem
  obtain ⟨i, hi⟩ := List.mem_iff_getElem?.mp hm
  have hsame : parity (a &&& m) = parity (b &&& m) := (ha i m hi).trans (hb i m hi).symm
  have hset : parity (b &&& m) = (true ^^ parity (a &&& m)) := by
    rw [parity_split (w := a &&& m) hk ?_ fun j hj hne => ?_, BitVec.getLsbD_and, h.right,
      getLsbD_ctz64 (hr.nonzero m hm), Bool.and_true]
    · rw [BitVec.getLsbD_and, h.left, Bool.false_and]
    · rw [BitVec.getLsbD_and, BitVec.getLsbD_and]
      by_cases hbit : m.getLsbD j = true
      · have hle := ctz64_le_of_getLsbD hbit
        rw [h.same j (by omega)]
      · rw [Bool.eq_false_of_not_eq_true hbit, Bool.and_false, Bool.and_false]
  rw [← hsame] at hset
  cases hp : parity (a &&& m) <;> rw [hp] at hset <;> cases hset

theorem Separated.dropAll_lt (hr : Separated r) {a b : Addr} (ha : r.Selects a) (hb : r.Selects b)
    (hab : a < b) : dropAll r.masksLsb a < dropAll r.masksLsb b := by
  obtain ⟨k, hk, habove⟩ := exists_above hab
  obtain ⟨k', hdropped⟩ := habove.dropAll hr.positions (hr.not_mem_of_above hk ha hb habove)
  exact hdropped.lt

/-- What the selector asks of every mask. -/
def targets (r : AddrRange) : List (Addr × Bool) :=
  r.masks.mapIdx fun i m => (m, r.intlvMatch.getLsbD i)

theorem mem_targets {x : Addr × Bool} :
    x ∈ targets r ↔ ∃ i, r.masks[i]? = some x.1 ∧ r.intlvMatch.getLsbD i = x.2 := by
  unfold targets
  rw [List.mem_iff_getElem?]
  simp only [List.getElem?_mapIdx, Option.map_eq_some_iff]
  constructor
  · rintro ⟨i, m, hm, rfl⟩
    exact ⟨i, hm, rfl⟩
  · rintro ⟨i, hm, hbit⟩
    exact ⟨i, x.1, hm, Prod.ext rfl hbit⟩

/-- The order of the masks by their lowest bits. -/
def LowerFirst (x y : Addr × Bool) : Prop := ctz64 x.1 ≤ ctz64 y.1

instance : DecidableRel LowerFirst := fun x y => Nat.decLe (ctz64 x.1) (ctz64 y.1)

instance : Std.Total LowerFirst := ⟨fun x y => Nat.le_total (ctz64 x.1) (ctz64 y.1)⟩

instance : IsTrans (Addr × Bool) LowerFirst := ⟨fun _ _ _ h h' => Nat.le_trans h h'⟩

/-- **The selector of the range** is taken by a word with given bits elsewhere. -/
theorem Separated.exists_selects (hr : Separated r) (base : Addr) :
    ∃ a, AgreeOff r.masksLsb a base ∧ r.Selects a := by
  have hperm := List.perm_insertionSort LowerFirst (targets r)
  have hle := List.pairwise_insertionSort LowerFirst (targets r)
  generalize (targets r).insertionSort LowerFirst = L at hperm hle
  have hlsbs : (targets r).map (fun x => ctz64 x.1) = r.masks.map ctz64 := by
    refine List.ext_getElem? fun i => ?_
    unfold targets
    rw [List.getElem?_map, List.getElem?_mapIdx, List.getElem?_map, Option.map_map]
    rfl
  have hnodup : (L.map fun x => ctz64 x.1).Nodup := by
    rw [(hperm.map _).nodup_iff, hlsbs]
    exact hr.nodup
  have hsorted : L.Pairwise fun x y => ctz64 x.1 < ctz64 y.1 :=
    (hle.and (List.pairwise_map.mp hnodup)).imp fun h => lt_of_le_of_ne h.1 h.2
  have hmask : ∀ x ∈ L, x.1 ∈ r.masks := by
    intro x hx
    obtain ⟨i, hi, -⟩ := mem_targets.mp (hperm.mem_iff.mp hx)
    exact List.mem_of_getElem? hi
  obtain ⟨a, hkeep, hparity⟩ :=
    exists_selected hsorted (fun x hx => hr.nonzero x.1 (hmask x hx)) base
  refine ⟨a, fun k _ hk => hkeep k fun x hx heq => hk ?_, fun i m hm => ?_⟩
  · exact mem_masksLsb.mpr ⟨x.1, hmask x hx, heq⟩
  · have hmem : (m, r.intlvMatch.getLsbD i) ∈ targets r := mem_targets.mpr ⟨i, hm, rfl⟩
    exact hparity (m, r.intlvMatch.getLsbD i) (hperm.mem_iff.mpr hmem)

/-! ## Offsets -/

theorem Separated.contains_iff (hr : Separated r) {a : Addr} :
    r.contains a = .ok true ↔ r.start ≤ a ∧ a < r.end_ ∧ r.Selects a := by
  rw [Base.contains_iff]
  constructor
  · rintro ⟨h1, h2, hsel⟩
    exact ⟨h1, h2, (selects_of_sel hsel).2⟩
  · rintro ⟨h1, h2, hselects⟩
    exact ⟨h1, h2, sel_of_selects hr.few hr.fits hselects⟩

theorem Separated.getOffset_eq (hr : Separated r) {a : Addr} (hs : r.start ≤ a) (he : a < r.end_) :
    r.getOffset a = dropAll r.masksLsb a - dropAll r.masksLsb r.start := by
  have hremove : ∀ x, r.removeIntlvBits x = dropAll r.masksLsb x := hr.removeIntlvBits_eq
  unfold AddrRange.getOffset
  rw [if_pos ⟨hs, he⟩]
  split
  · rw [hremove, hremove]
  · next hplain =>
      rw [← hremove, ← hremove]
      unfold AddrRange.removeIntlvBits
      rw [if_neg hplain, if_neg hplain]

/-- The numbers of a range: it goes from block `s` to block `e`, and a block of `2 ^ t` addresses
has `2 ^ w` of its own. -/
structure Blocks (r : AddrRange) (t w s e : ℕ) : Prop where
  start_eq : r.start.toNat = 2 ^ t * s
  end_eq : r.end_.toNat = 2 ^ t * e
  le : s ≤ e
  pow_eq : 2 ^ t = 2 ^ w * 2 ^ r.masks.length
  first : (dropAll r.masksLsb r.start).toNat = 2 ^ w * s
  block : ∀ a : Addr, (dropAll r.masksLsb a).toNat / 2 ^ w = a.toNat / 2 ^ t

theorem Separated.exists_blocks (hr : Separated r) (hal : Aligned r) (hvalid : r.start ≤ r.end_) :
    ∃ t w s e, Blocks r t w s e := by
  obtain ⟨t, ht, hlt, ⟨s, hs⟩, ⟨e, he⟩⟩ := hr.exists_top hal
  have hpos := hr.positions
  have hlen : r.masks.length ≤ t := length_masksLsb ▸ hpos.length_le hlt
  have hblock : ∀ a : Addr, (dropAll r.masksLsb a).toNat / 2 ^ (t - r.masks.length) =
      a.toNat / 2 ^ t := by
    intro a
    rw [← length_masksLsb]
    exact toNat_dropAll_div hpos hlt a
  have hdvd : 2 ^ (t - r.masks.length) ∣ (dropAll r.masksLsb r.start).toNat := by
    refine dvd_of_getLsbD fun j hj => getLsbD_dropAll_low hpos hlt (fun i hi => ?_) ?_
    · exact getLsbD_of_dvd ⟨s, hs⟩ hi
    · rw [length_masksLsb]
      omega
  refine ⟨t, t - r.masks.length, s, e, hs, he, ?_, ?_, ?_, hblock⟩
  · refine Nat.le_of_mul_le_mul_left ?_ (Nat.two_pow_pos t)
    rw [← hs, ← he]
    exact hvalid
  · rw [← pow_add, Nat.sub_add_cancel hlen]
  · rw [← Nat.mul_div_cancel' hdvd, hblock, hs, Nat.mul_div_cancel_left s (Nat.two_pow_pos t)]

theorem Blocks.mem_iff {t w s e : ℕ} (h : Blocks r t w s e) (a : Addr) :
    r.start ≤ a ∧ a < r.end_ ↔
      2 ^ w * s ≤ (dropAll r.masksLsb a).toNat ∧ (dropAll r.masksLsb a).toNat < 2 ^ w * e := by
  have hdiv := h.block a
  have hle : ∀ {n : ℕ} (k x : ℕ), 0 < n → (n * k ≤ x ↔ k ≤ x / n) := fun k x hn => by
    rw [Nat.le_div_iff_mul_le hn, Nat.mul_comm]
  have hlt : ∀ {n : ℕ} (k x : ℕ), 0 < n → (x < n * k ↔ x / n < k) := fun k x hn => by
    rw [Nat.div_lt_iff_lt_mul hn, Nat.mul_comm]
  rw [BitVec.le_def, BitVec.lt_def, h.start_eq, h.end_eq, hle _ _ (Nat.two_pow_pos t),
    hlt _ _ (Nat.two_pow_pos t), hle _ _ (Nat.two_pow_pos w), hlt _ _ (Nat.two_pow_pos w), hdiv]

theorem Blocks.size_eq {t w s e : ℕ} (h : Blocks r t w s e) (hfew : r.masks.length ≤ 32) :
    ∃ size, r.size = .ok size ∧ size.toNat = 2 ^ w * e - 2 ^ w * s := by
  refine ⟨(r.end_ - r.start) >>> r.masks.length,
    bind_eq_ok.mpr ⟨(), require_ok (decide_eq_true (by omega)), rfl⟩, ?_⟩
  have hle : r.start.toNat ≤ r.end_.toNat := by
    rw [h.start_eq, h.end_eq]
    exact Nat.mul_le_mul_left _ h.le
  have hsub : (r.end_ - r.start).toNat = r.end_.toNat - r.start.toNat := by
    have := r.end_.isLt
    rw [BitVec.toNat_sub]
    omega
  have hdiff : r.end_.toNat - r.start.toNat =
      (2 ^ w * e - 2 ^ w * s) * 2 ^ r.masks.length := by
    rw [h.start_eq, h.end_eq, h.pow_eq, Nat.sub_mul]
    congr 1 <;> ring
  rw [BitVec.toNat_ushiftRight, Nat.shiftRight_eq_div_pow, hsub, hdiff,
    Nat.mul_div_cancel _ (Nat.two_pow_pos _)]

/-- The offset of an address of the range, as a number. -/
theorem Separated.toNat_getOffset (hr : Separated r) {t w s e : ℕ} (hb : Blocks r t w s e)
    {a : Addr} (ha : r.contains a = .ok true) :
    (r.getOffset a).toNat + 2 ^ w * s = (dropAll r.masksLsb a).toNat := by
  obtain ⟨h1, h2, -⟩ := hr.contains_iff.mp ha
  have hlow := ((hb.mem_iff a).mp ⟨h1, h2⟩).1
  have hlt := (dropAll r.masksLsb a).isLt
  rw [hr.getOffset_eq h1 h2, BitVec.toNat_sub, hb.first]
  omega

/-- **Offsets are consecutive numbers.**  For a range with different lowest bits of the masks, which
starts and ends above them, the offsets of its addresses are in the order of the addresses, no two
are equal, and they are exactly the numbers below the size. -/
theorem offset_bijection (hr : Separated r) (hvalid : r.start ≤ r.end_) (hal : Aligned r) :
    (∀ a b, r.contains a = .ok true → r.contains b = .ok true →
      (a < b → r.getOffset a < r.getOffset b) ∧ (r.getOffset a = r.getOffset b → a = b)) ∧
    ∃ size, r.size = .ok size ∧
      ∀ x, x < size ↔ ∃ a, r.contains a = .ok true ∧ r.getOffset a = x := by
  obtain ⟨t, w, s, e, hb⟩ := hr.exists_blocks hal hvalid
  obtain ⟨size, hsize, hnat⟩ := hb.size_eq hr.few
  have hmono : ∀ a b, r.contains a = .ok true → r.contains b = .ok true → a < b →
      r.getOffset a < r.getOffset b := by
    intro a b ha hcb hab
    have hlt := hr.dropAll_lt (hr.contains_iff.mp ha).2.2 (hr.contains_iff.mp hcb).2.2 hab
    have h1 := hr.toNat_getOffset hb ha
    have h2 := hr.toNat_getOffset hb hcb
    rw [BitVec.lt_def] at hlt ⊢
    omega
  refine ⟨fun a b ha hcb => ⟨hmono a b ha hcb, fun heq => ?_⟩, size, hsize, fun x => ⟨?_, ?_⟩⟩
  · rcases Nat.lt_trichotomy a.toNat b.toNat with hlt | hab | hlt
    · exact absurd heq (BitVec.ne_of_lt (hmono a b ha hcb hlt))
    · exact BitVec.eq_of_toNat_eq hab
    · exact absurd heq.symm (BitVec.ne_of_lt (hmono b a hcb ha hlt))
  · intro hx
    rw [BitVec.lt_def, hnat] at hx
    -- the word with this number above the dropped bits
    have hspace : 2 ^ w * e * 2 ^ r.masks.length < 2 ^ (64 - r.masks.length) *
        2 ^ r.masks.length := by
      rw [← pow_add, Nat.sub_add_cancel (by have := hr.few; omega),
        show 2 ^ w * e * 2 ^ r.masks.length = r.end_.toNat by rw [hb.end_eq, hb.pow_eq]; ring]
      exact r.end_.isLt
    have hend : 2 ^ w * e < 2 ^ (64 - r.masks.length) := Nat.lt_of_mul_lt_mul_right hspace
    have hpow : 2 ^ (64 - r.masks.length) ≤ 2 ^ 64 :=
      Nat.pow_le_pow_right (by decide) (Nat.sub_le _ _)
    let y : Addr := BitVec.ofNat 64 (x.toNat + 2 ^ w * s)
    have hy : y.toNat = x.toNat + 2 ^ w * s := by
      show (BitVec.ofNat 64 _).toNat = _
      rw [BitVec.toNat_ofNat]
      exact Nat.mod_eq_of_lt (by omega)
    have hbelow : Below (64 - r.masks.length) y := by
      intro k hk
      rw [BitVec.getLsbD]
      refine Nat.testBit_lt_two_pow ?_
      refine lt_of_lt_of_le (b := 2 ^ (64 - r.masks.length)) (by omega) ?_
      exact Nat.pow_le_pow_right (by decide) hk
    have hopen : dropAll r.masksLsb (openLoop r.masksLsb y) = y := by
      refine dropAll_openLoop hr.positions hbelow ?_
      rw [length_masksLsb]
      have := hr.few
      omega
    obtain ⟨a, hoff, hselects⟩ := hr.exists_selects (openLoop r.masksLsb y)
    have hdrop : dropAll r.masksLsb a = y := (dropAll_congr hr.positions hoff).trans hopen
    have hin : r.start ≤ a ∧ a < r.end_ := by
      rw [hb.mem_iff, hdrop]
      omega
    have hcontains : r.contains a = .ok true := hr.contains_iff.mpr ⟨hin.1, hin.2, hselects⟩
    refine ⟨a, hcontains, BitVec.eq_of_toNat_eq ?_⟩
    have hoffset := hr.toNat_getOffset hb hcontains
    rw [hdrop] at hoffset
    omega
  · rintro ⟨a, ha, rfl⟩
    have hoffset := hr.toNat_getOffset hb ha
    obtain ⟨h1, h2, -⟩ := hr.contains_iff.mp ha
    have hlt := ((hb.mem_iff a).mp ⟨h1, h2⟩).2
    rw [BitVec.lt_def, hnat]
    omega

theorem offset_bijection_fourChannels :
    (∀ a b, (fourChannels 2).contains a = .ok true → (fourChannels 2).contains b = .ok true →
      (a < b → (fourChannels 2).getOffset a < (fourChannels 2).getOffset b) ∧
      ((fourChannels 2).getOffset a = (fourChannels 2).getOffset b → a = b)) ∧
    ∃ size, (fourChannels 2).size = .ok size ∧
      ∀ x, x < size ↔ ∃ a, (fourChannels 2).contains a = .ok true ∧
        (fourChannels 2).getOffset a = x := by
  refine offset_bijection ⟨fun m hm => ?_, by decide +kernel, by decide, by decide⟩ (by decide)
    fun m hm => ?_
  · rcases mem_fourChannels hm with rfl | rfl <;> decide
  · rcases mem_fourChannels hm with rfl | rfl <;> decide +kernel

/-- Two masks with the lowest bit 6: bit 5 is dropped in place of one of them. -/
theorem shared_lowest_bit :
    ∃ r, AddrRange.ofMasks 0 512 [0xC0, 0x140] 0 = .ok r ∧ r.start ≤ r.end_ ∧ Aligned r ∧
      r.contains 0 = .ok true ∧ r.contains 32 = .ok true ∧ r.getOffset 0 = r.getOffset 32 := by
  refine ⟨⟨0, 512, [0xC0, 0x140], 0⟩, rfl, by decide, fun m hm => ?_, by decide +kernel,
    by decide +kernel, by decide +kernel⟩
  rcases List.mem_cons.mp hm with rfl | hm
  · decide +kernel
  · rw [List.mem_singleton.mp hm]
    decide +kernel

end Gem5.Base
