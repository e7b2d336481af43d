/-
# Merging interleaved ranges

The merging constructor of `AddrRange` checks that it gets one range for each value of
the selector and returns the interval they share.  It counts the expected match value
in a `uint8_t`, and a match value is a `uint8_t` as well: with nine masks and more the
count wraps and ranges with equal match values are accepted.  So the merged range
contains what exactly one of the parts contains, for all intervals, exactly when there
are at most eight masks (`merge_exact_iff`).
-/
import Gem5.AddrRange

open Runs

namespace Gem5.Base

/-- The loop accepts exactly the ranges of the interval with the masks, their match values
counted up from `expected`. -/
theorem mergeLoop_ok {first : AddrRange} {expected : BitVec 8} {ranges : List AddrRange} {u : Unit}
    (h : mergeLoop first expected ranges = .ok u) {i : ℕ} {r : AddrRange}
    (hr : ranges[i]? = some r) :
    r = ⟨first.start, first.end_, first.masks, expected + BitVec.ofNat 8 i⟩ := by
  induction ranges generalizing expected i with
  | nil => cases hr
  | cons r₀ ranges ih =>
    unfold mergeLoop at h
    obtain ⟨_, hmerge, h⟩ := bind_eq_ok.mp h
    obtain ⟨_, hmatch, h⟩ := bind_eq_ok.mp h
    rw [require_eq_ok] at hmerge hmatch
    cases i with
    | zero =>
      obtain rfl := Option.some.inj hr
      unfold AddrRange.mergesWith at hmerge
      simp only [Bool.and_eq_true, decide_eq_true_eq] at hmerge hmatch
      obtain ⟨⟨hs, he⟩, hm⟩ := hmerge
      obtain ⟨start, end_, masks, intlvMatch⟩ := r₀
      simp only at hs he hm hmatch
      rw [hs, he, hm, hmatch]
      simp
    | succ i =>
      rw [ih h hr]
      have hsum : expected + 1 + BitVec.ofNat 8 i = expected + BitVec.ofNat 8 (i + 1) := by
        have hone : (1 : BitVec 8) = BitVec.ofNat 8 1 := rfl
        rw [BitVec.add_assoc, hone, ← BitVec.ofNat_add, Nat.add_comm 1 i]
      rw [hsum]

section Merge

variable {first M : AddrRange} {rest : List AddrRange}

/-- **What the merging constructor accepts and returns.** -/
theorem ofRanges_ok (hrest : rest ≠ []) (h : AddrRange.ofRanges (first :: rest) = .ok M) :
    M = AddrRange.plain first.start first.end_ ∧
      (first :: rest).length = 2 ^ first.masks.length ∧
      ∀ (i : ℕ) (r : AddrRange), (first :: rest)[i]? = some r →
        r = ⟨first.start, first.end_, first.masks, BitVec.ofNat 8 i⟩ := by
  cases rest with
  | nil => exact absurd rfl hrest
  | cons second rest =>
    unfold AddrRange.ofRanges at h
    obtain ⟨_, -, h⟩ := bind_eq_ok.mp h
    obtain ⟨_, hnum, h⟩ := bind_eq_ok.mp h
    obtain ⟨_, hloop, h⟩ := bind_eq_ok.mp h
    rw [require_eq_ok, decide_eq_true_eq] at hnum
    refine ⟨(Except.ok.inj h).symm, hnum, ?_⟩
    intro i r hr
    rw [mergeLoop_ok hloop hr]
    simp

/-- The merged range is the interval. -/
theorem contains_plain {start end_ a : Addr} :
    (AddrRange.plain start end_).contains a = .ok true ↔ start ≤ a ∧ a < end_ := by
  rw [contains_iff]
  refine and_congr_right fun _ => and_iff_left ?_
  rfl

/-- One of the merged ranges contains an address. -/
def PartContains (ranges : List AddrRange) (a : Addr) (i : ℕ) : Prop :=
  ∃ r, ranges[i]? = some r ∧ r.contains a = .ok true

/-- Part `i` contains the addresses of the interval whose selector is `i`, as a
`uint8_t`. -/
theorem partContains_iff (hrest : rest ≠ []) (h : AddrRange.ofRanges (first :: rest) = .ok M)
    {a : Addr} {i : ℕ} :
    PartContains (first :: rest) a i ↔
      i < 2 ^ first.masks.length ∧ first.start ≤ a ∧ a < first.end_ ∧
        first.sel a = .ok ((BitVec.ofNat 8 i).setWidth 32) := by
  obtain ⟨-, hlen, hparts⟩ := ofRanges_ok hrest h
  constructor
  · rintro ⟨r, hr, hcont⟩
    have hi := (List.getElem?_eq_some_iff.mp hr).1
    rw [hparts i r hr, contains_iff] at hcont
    exact ⟨hlen ▸ hi, hcont⟩
  · rintro ⟨hi, hcont⟩
    rw [← hlen] at hi
    have hr := List.getElem?_eq_getElem hi
    refine ⟨_, hr, ?_⟩
    rw [hparts i _ hr, contains_iff]
    exact hcont

/-- The selector has one bit for each mask. -/
theorem sel_lt (r : AddrRange) (a : Addr) {s : BitVec 32} (hlen : r.masks.length ≤ 32)
    (hs : r.sel a = .ok s) : s.toNat < 2 ^ r.masks.length := by
  obtain ⟨s', hs', hbits⟩ := sel_eq hlen a
  obtain rfl := Except.ok.inj (hs.symm.trans hs')
  apply Nat.lt_pow_two_of_testBit
  intro k hk
  have hbit := hbits k
  rw [List.getElem?_eq_none hk] at hbit
  exact hbit

/-- With at most eight masks, the selector names exactly one part. -/
theorem existsUnique_part (hrest : rest ≠ []) (h : AddrRange.ofRanges (first :: rest) = .ok M)
    (height : first.masks.length ≤ 8) {a : Addr} (ha : first.start ≤ a ∧ a < first.end_) :
    ∃! i, PartContains (first :: rest) a i := by
  obtain ⟨s, hs, -⟩ := sel_eq (r := first) (by omega) a
  have hlt := sel_lt first a (by omega) hs
  have hpow : 2 ^ first.masks.length ≤ 2 ^ 8 := Nat.pow_le_pow_right (by decide) height
  refine ⟨s.toNat, ?_, ?_⟩
  · show PartContains (first :: rest) a s.toNat
    rw [partContains_iff hrest h, hs]
    refine ⟨hlt, ha.1, ha.2, ?_⟩
    rw [Except.ok.injEq]
    apply BitVec.eq_of_toNat_eq
    rw [BitVec.toNat_setWidth, BitVec.toNat_ofNat]
    omega
  · intro i hi
    rw [partContains_iff hrest h, hs] at hi
    obtain ⟨hi, -, -, hsel⟩ := hi
    have hval := congrArg BitVec.toNat (Except.ok.inj hsel)
    rw [BitVec.toNat_setWidth, BitVec.toNat_ofNat] at hval
    omega

/-- With nine masks or more, every part has another one with the same match value. -/
theorem not_existsUnique_part (hrest : rest ≠ [])
    (h : AddrRange.ofRanges (first :: rest) = .ok M) (hnine : 9 ≤ first.masks.length) (a : Addr) :
    ¬∃! i, PartContains (first :: rest) a i := by
  rintro ⟨i, hi, huniq⟩
  obtain ⟨hlt, hstart, hend, hsel⟩ := (partContains_iff hrest h).mp hi
  have hpow : 2 ^ 9 ∣ 2 ^ first.masks.length := pow_dvd_pow 2 hnine
  obtain ⟨c, hc⟩ := hpow
  -- the part half a cycle of 512 away
  have hother : ∃ j, j ≠ i ∧ j < 2 ^ first.masks.length ∧ j % 256 = i % 256 := by
    rcases Nat.lt_or_ge (i % 512) 256 with hi' | hi'
    · refine ⟨i + 256, by omega, ?_, by omega⟩
      omega
    · exact ⟨i - 256, by omega, by omega, by omega⟩
  obtain ⟨j, hne, hj, hmod⟩ := hother
  apply hne
  apply huniq
  rw [partContains_iff hrest h]
  refine ⟨hj, hstart, hend, ?_⟩
  have hmatch : BitVec.ofNat 8 j = BitVec.ofNat 8 i := by
    apply BitVec.eq_of_toNat_eq
    rw [BitVec.toNat_ofNat, BitVec.toNat_ofNat]
    exact hmod
  rw [hmatch]
  exact hsel

/-- **Merging is exact when there are at most eight masks, or no address at all.** -/
theorem merge_exact_iff (hrest : rest ≠ []) (h : AddrRange.ofRanges (first :: rest) = .ok M) :
    (∀ a, M.contains a = .ok true ↔ ∃! i, PartContains (first :: rest) a i) ↔
      first.masks.length ≤ 8 ∨ first.end_ ≤ first.start := by
  obtain ⟨rfl, -, -⟩ := ofRanges_ok hrest h
  constructor
  · intro hexact
    by_contra hnot
    rw [not_or, not_le, BitVec.not_le] at hnot
    apply not_existsUnique_part hrest h hnot.1 first.start
    rw [← hexact, contains_plain]
    exact ⟨BitVec.le_refl _, hnot.2⟩
  · intro hcond a
    rw [contains_plain]
    constructor
    · rintro ⟨hstart, hend⟩
      rcases hcond with height | hempty
      · exact existsUnique_part hrest h height ⟨hstart, hend⟩
      · rw [BitVec.le_def] at hstart hempty
        rw [BitVec.lt_def] at hend
        omega
    · rintro ⟨i, hi, -⟩
      obtain ⟨-, hstart, hend, -⟩ := (partContains_iff hrest h).mp hi
      exact ⟨hstart, hend⟩

end Merge

/-- Two channels that are selected by bit 6. -/
theorem merge_exact_twoChannels :
    AddrRange.ofRanges [⟨0, 0x1000, [0x40], 0⟩, ⟨0, 0x1000, [0x40], 1⟩] = .ok ⟨0, 0x1000, [], 0⟩ ∧
      ∀ a, (⟨0, 0x1000, [], 0⟩ : AddrRange).contains a = .ok true ↔
        ∃! i, PartContains [⟨0, 0x1000, [0x40], 0⟩, ⟨0, 0x1000, [0x40], 1⟩] a i := by
  have hmerge : AddrRange.ofRanges [⟨0, 0x1000, [0x40], 0⟩, ⟨0, 0x1000, [0x40], 1⟩] =
      .ok ⟨0, 0x1000, [], 0⟩ := by decide +kernel
  exact ⟨hmerge, (merge_exact_iff (by simp) hmerge).mpr (.inl (by decide))⟩

/-- A range that is selected by bits 6 to 14. -/
def nineBit (i : BitVec 8) : AddrRange :=
  ⟨0, 0x10000, [0x40, 0x80, 0x100, 0x200, 0x400, 0x800, 0x1000, 0x2000, 0x4000], i⟩

/-- The 512 ranges of nine masks, as far as a `uint8_t` can count. -/
def nineBits : List AddrRange := (List.range 512).map fun i => nineBit (BitVec.ofNat 8 i)

/-- **Nine masks**: the merged range contains address 0, and so do two of the parts. -/
theorem nineBits_merged_twice :
    ∃ M, AddrRange.ofRanges nineBits = .ok M ∧
      ¬∀ a, M.contains a = .ok true ↔ ∃! i, PartContains nineBits a i := by
  refine ⟨⟨0, 0x10000, [], 0⟩, by decide +kernel, ?_⟩
  intro hexact
  obtain ⟨i, -, huniq⟩ := (hexact 0).mp (by decide +kernel)
  have hfirst : PartContains nineBits 0 0 :=
    ⟨nineBit 0, by decide +kernel, by decide +kernel⟩
  have hsecond : PartContains nineBits 0 256 :=
    ⟨nineBit 0, by decide +kernel, by decide +kernel⟩
  have heq := (huniq 0 hfirst).trans (huniq 256 hsecond).symm
  cases heq

end Gem5.Base
