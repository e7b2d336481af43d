/-
# Unions of ranges

Two facts that the published ranges of a crossbar rest on: a range that `isSubset` accepts
is a subset, also of an interleaved range; and what the merging constructor returns for
ranges of a map covers exactly what they cover together.
-/
import Gem5.RangeLookup
import Gem5.AddrRangeMerge

open Runs

namespace Gem5.Base

/-! ## Subsets -/

/-- An address selects what another one of its block does, when the masks do not look into
the blocks. -/
theorem selects_of_block {r : AddrRange} {a b : Addr} {k : ℕ} (hblock : a >>> k = b >>> k)
    (hmasks : ∀ m ∈ r.masks, ∀ j < k, m.getLsbD j = false) (hb : r.Selects b) : r.Selects a := by
  intro i m hm
  have hand : a &&& m = b &&& m := by
    apply BitVec.eq_of_getLsbD_eq
    intro j _
    rw [BitVec.getLsbD_and, BitVec.getLsbD_and]
    by_cases hj : j < k
    · rw [hmasks m (List.mem_of_getElem? hm) j hj, Bool.and_false, Bool.and_false]
    · have hbit := congrArg (fun x : Addr => x.getLsbD (j - k)) hblock
      simp only [BitVec.getLsbD_ushiftRight] at hbit
      rw [Nat.add_sub_cancel' (not_lt.mp hj)] at hbit
      rw [hbit]
  rw [hand]
  exact hb i m hm

/-- A block of `2 ^ k` addresses reaches at most into the next one. -/
theorem block_of_between {s t a : Addr} {k : ℕ} (hs : s ≤ a) (ht : a ≤ t)
    (hsize : t.toNat < s.toNat + 2 ^ k) : a >>> k = s >>> k ∨ a >>> k = t >>> k := by
  have hpos := Nat.two_pow_pos k
  have h1 : s.toNat / 2 ^ k ≤ a.toNat / 2 ^ k := Nat.div_le_div_right hs
  have h2 : a.toNat / 2 ^ k ≤ t.toNat / 2 ^ k := Nat.div_le_div_right ht
  have h3 : t.toNat / 2 ^ k ≤ s.toNat / 2 ^ k + 1 := by
    rw [← Nat.add_div_right _ hpos]
    exact Nat.div_le_div_right hsize.le
  rcases Nat.lt_or_ge (s.toNat / 2 ^ k) (a.toNat / 2 ^ k) with hlt | hge
  · right
    apply BitVec.eq_of_toNat_eq
    rw [BitVec.toNat_ushiftRight, BitVec.toNat_ushiftRight, Nat.shiftRight_eq_div_pow,
      Nat.shiftRight_eq_div_pow]
    omega
  · left
    apply BitVec.eq_of_toNat_eq
    rw [BitVec.toNat_ushiftRight, BitVec.toNat_ushiftRight, Nat.shiftRight_eq_div_pow,
      Nat.shiftRight_eq_div_pow]
    omega

/-- The granularity is a power of two below which no mask has a bit. -/
theorem Proper.granularity_block {r : AddrRange} (hr : Proper r) (h : r.masks ≠ []) :
    ∃ k < 32, r.granularity = .ok (1#64 <<< k) ∧
      ∀ m ∈ r.masks, ∀ j < k, m.getLsbD j = false := by
  obtain ⟨m, hm, i, hi, hbit⟩ := hr.low h
  set c := r.masks.foldl (fun c m => ((c.signExtend 64) ||| m).setWidth 32) (0 : BitVec 32) with hc
  have hget : ∀ j < 32, (c.signExtend 64).getLsbD j = r.masks.any fun m => m.getLsbD j := by
    intro j hj
    have hj64 : j < 64 := by omega
    rw [BitVec.getLsbD_signExtend, if_pos hj, hc, getLsbD_combined hj]
    simp [hj64]
  have hlow : ctz64 (c.signExtend 64) ≤ i := by
    refine ctz64_le_of_getLsbD ?_
    rw [hget i hi]
    exact List.any_eq_true.mpr ⟨m, hm, hbit⟩
  refine ⟨ctz64 (c.signExtend 64), by omega, ?_, fun m' hm' j hj => ?_⟩
  · unfold AddrRange.granularity
    rw [if_pos (show r.interleaved = true from decide_eq_true h)]
    dsimp only
    rw [← hc, require_ok (decide_eq_true (by omega))]
    rfl
  · by_contra hset
    have hle : ctz64 (c.signExtend 64) ≤ j := by
      refine ctz64_le_of_getLsbD ?_
      rw [hget j (by omega)]
      exact List.any_eq_true.mpr ⟨m', hm', Bool.not_eq_false _ ▸ hset⟩
    omega

/-- What lies between two addresses of a range that are at most a block apart is in it. -/
theorem contains_of_ends {E : AddrRange} (hE : Proper E) {s t a : Addr} {k : ℕ}
    (hmasks : ∀ m ∈ E.masks, ∀ j < k, m.getLsbD j = false) (hs : E.contains s = .ok true)
    (ht : E.contains t = .ok true) (hsa : s ≤ a) (hat : a ≤ t)
    (hspan : t.toNat < s.toNat + 2 ^ k) : E.contains a = .ok true := by
  obtain ⟨hstart, -, hsels⟩ := contains_iff.mp hs
  obtain ⟨-, hend, hselt⟩ := contains_iff.mp ht
  have hselects : E.Selects a := by
    rcases block_of_between hsa hat hspan with hblock | hblock
    · exact selects_of_block hblock hmasks (selects_of_sel hsels).2
    · exact selects_of_block hblock hmasks (selects_of_sel hselt).2
  refine contains_iff.mpr ⟨?_, ?_, sel_of_selects hE.few hE.fits hselects⟩ <;> bv_omega

/-- **`isSubset` is sound**: what lies in the range lies in the other one. -/
theorem contains_of_subset {x E : AddrRange} (hE : Proper E) (h : x.isSubset E = .ok true)
    {a : Addr} (hs : x.start ≤ a) (he : a < x.end_) : E.contains a = .ok true := by
  have hplain : x.masks = [] := by
    by_contra hm
    rw [isSubset_of_interleaved hm] at h
    cases h
  unfold AddrRange.isSubset at h
  rw [if_neg (by rw [show x.interleaved = false from decide_eq_false (not_not.mpr hplain)]
                 exact Bool.false_ne_true)] at h
  by_cases hm : E.masks = []
  · rw [show E.interleaved = false from decide_eq_false (not_not.mpr hm)] at h
    have hbool := Except.ok.inj h
    rw [Bool.and_eq_true, decide_eq_true_eq, decide_eq_true_eq] at hbool
    rw [contains_of_plain hE hm]
    constructor <;> bv_omega
  · rw [if_pos (show E.interleaved = true from decide_eq_true hm)] at h
    obtain ⟨first, hfirst, h⟩ := bind_eq_ok.mp h
    cases first with
    | false => cases h
    | true =>
      rw [if_neg (by simp)] at h
      obtain ⟨last, hlast, h⟩ := bind_eq_ok.mp h
      cases last with
      | false => cases h
      | true =>
        rw [if_neg (by simp)] at h
        obtain ⟨size, hsize, h⟩ := bind_eq_ok.mp h
        obtain ⟨g, hg, h⟩ := bind_eq_ok.mp h
        have hle : size ≤ g := of_decide_eq_true (Except.ok.inj h)
        obtain ⟨k, hk, hgran, hmasks⟩ := hE.granularity_block hm
        obtain rfl := Except.ok.inj (hgran.symm.trans hg)
        unfold AddrRange.size at hsize
        rw [hplain] at hsize
        obtain rfl : (x.end_ - x.start) >>> 0 = size := Except.ok.inj hsize
        have hpow : (1#64 <<< k).toNat = 2 ^ k := by
          rw [BitVec.toNat_shiftLeft, Nat.shiftLeft_eq]
          have hlt : 2 ^ k < 2 ^ 64 := Nat.pow_lt_pow_right (by decide) (by omega)
          simp only [BitVec.toNat_ofNat]
          omega
        have hspan : (x.end_ - 1).toNat < x.start.toNat + 2 ^ k := by
          rw [← hpow]
          generalize (1#64 <<< k) = g at hle
          rw [BitVec.ushiftRight_zero] at hle
          bv_omega
        exact contains_of_ends hE hmasks hfirst hlast hs (by bv_omega) hspan

/-! ## Merged groups -/

/-- Some range of the list contains the address. -/
def Covered (ranges : List AddrRange) (a : Addr) : Prop :=
  ∃ r ∈ ranges, r.contains a = .ok true

theorem covered_append {xs ys : List AddrRange} {a : Addr} :
    Covered (xs ++ ys) a ↔ Covered xs a ∨ Covered ys a := by
  simp only [Covered, List.mem_append, or_and_right, exists_or]

theorem covered_singleton {r : AddrRange} {a : Addr} :
    Covered [r] a ↔ r.contains a = .ok true := by
  simp only [Covered, List.mem_singleton, exists_eq_left]

theorem not_covered_nil {a : Addr} : ¬Covered [] a := fun ⟨_, hr, _⟩ => List.not_mem_nil hr

/-- Ranges that follow each other are different. -/
theorem Follows.ne {x y : AddrRange} (hx : Proper x) (h : Follows x y) : x ≠ y := by
  rintro rfl
  have hne := hx.nonempty
  rcases h with h | ⟨-, -, -, -, h⟩ <;> bv_omega

/-- **Merging covers what the parts cover**, for proper ranges in the order of a map. -/
theorem ofRanges_covers {group : List AddrRange} {M : AddrRange} (hne : group ≠ [])
    (hfollows : group.Pairwise Follows) (hproper : ∀ r ∈ group, Proper r)
    (h : AddrRange.ofRanges group = .ok M) (a : Addr) :
    M.contains a = .ok true ↔ Covered group a := by
  obtain ⟨first, rest, rfl⟩ := List.exists_cons_of_ne_nil hne
  cases hrest : rest with
  | nil =>
    subst hrest
    obtain rfl : first = M := Except.ok.inj h
    exact covered_singleton.symm
  | cons second rest' =>
    have hmany : rest ≠ [] := hrest ▸ List.cons_ne_nil second rest'
    rw [← hrest]
    obtain ⟨rfl, hlen, hparts⟩ := ofRanges_ok hmany h
    -- with nine masks two parts would be the same range
    have height : first.masks.length ≤ 8 := by
      by_contra hnine
      have hpow : 2 ^ 9 ≤ 2 ^ first.masks.length :=
        Nat.pow_le_pow_right (by decide) (by omega)
      have hlt : 256 < (first :: rest).length := by omega
      have hzero := hparts 0 first rfl
      have hother := hparts 256 _ (List.getElem?_eq_getElem hlt)
      have hpair := (List.pairwise_cons.mp hfollows).1 _
        (List.getElem_mem (l := rest) (n := 255) (by rw [List.length_cons] at hlt; omega))
      refine hpair.ne (hproper first List.mem_cons_self) ?_
      rw [List.getElem_cons_succ] at hother
      rw [hother, hzero]
      rfl
    rw [contains_plain]
    constructor
    · intro ha
      obtain ⟨i, ⟨r, hr, hcont⟩, -⟩ := existsUnique_part hmany h height ha
      exact ⟨r, List.mem_of_getElem? hr, hcont⟩
    · rintro ⟨r, hr, hcont⟩
      obtain ⟨i, hi⟩ := List.getElem?_of_mem hr
      obtain ⟨-, hs, he, -⟩ := (partContains_iff hmany h).mp ⟨r, hi, hcont⟩
      exact ⟨hs, he⟩

end Gem5.Base
