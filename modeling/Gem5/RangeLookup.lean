/-
# Finding the owner of an address

The tree of an `AddrRangeMap` is searched at one place: `find` looks at the first node
behind the key, then walks back from it as long as the ranges merge.  That finds what it
looks for when the stored ranges *follow* each other (`Follows`): each ends before the
next one starts, or both are of one interleaved group, in the order of their match
values.  This module shows that insertion keeps the ranges in this order, that a lookup
then returns the one entry that contains the address, and that the cache of iterators
changes nothing.

The order needs ranges that are not empty and lie apart unless they are of one group
(`Proper`, `Comparable`).  The range `erase` removes only its first iterator from the
cache: it must not be used while the others are cached.
-/
import Gem5.AddrRangeMap
import Gem5.Ordered

open Runs

namespace Gem5.Base

/-! ## Proper ranges -/

/-- A range that is not empty, whose match value fits its masks, and whose selector and
granularity are defined. -/
structure Proper (r : AddrRange) : Prop where
  nonempty : r.start < r.end_
  fits : r.intlvMatch.toNat < 2 ^ r.masks.length
  few : r.masks.length ≤ 32
  low : r.masks ≠ [] → ∃ m ∈ r.masks, ∃ k < 32, m.getLsbD k = true

instance (r : AddrRange) : Decidable (Proper r) :=
  decidable_of_iff
    (r.start < r.end_ ∧ r.intlvMatch.toNat < 2 ^ r.masks.length ∧ r.masks.length ≤ 32 ∧
      (r.masks ≠ [] → (r.masks.any fun m => (List.range 32).any fun k => m.getLsbD k) = true))
    (by
      simp only [List.any_eq_true, List.mem_range]
      exact ⟨fun ⟨h1, h2, h3, h4⟩ => ⟨h1, h2, h3, h4⟩, fun ⟨h1, h2, h3, h4⟩ => ⟨h1, h2, h3, h4⟩⟩)

variable {r s x E : AddrRange} {a : Addr}

theorem Proper.intlvMatch_of_plain (hr : Proper r) (h : r.masks = []) :
    r.intlvMatch = 0 := by
  have hfits := hr.fits
  rw [h, List.length_nil, Nat.pow_zero, Nat.lt_one_iff] at hfits
  exact BitVec.eq_of_toNat_eq hfits

/-- `contains` is defined. -/
theorem Proper.contains_total (hr : Proper r) (a : Addr) :
    r.contains a = .ok true ∨ r.contains a = .ok false := by
  unfold AddrRange.contains
  split
  · obtain ⟨s, hs, -⟩ := sel_eq hr.few a
    rw [hs]
    show Except.ok (decide (s = _)) = _ ∨ Except.ok (decide (s = _)) = _
    by_cases h : s = r.intlvMatch.setWidth 32
    · exact .inl (congrArg Except.ok (decide_eq_true h))
    · exact .inr (congrArg Except.ok (decide_eq_false h))
  · exact .inr rfl

/-- The combined mask, bit by bit. -/
theorem getLsbD_combined {masks : List Addr} {c : BitVec 32} {k : ℕ} (hk : k < 32) :
    (masks.foldl (fun c m => ((c.signExtend 64) ||| m).setWidth 32) c).getLsbD k =
      (c.getLsbD k || masks.any fun m => m.getLsbD k) := by
  induction masks generalizing c with
  | nil => simp
  | cons m masks ih =>
    rw [List.foldl_cons, ih, BitVec.getLsbD_setWidth, BitVec.getLsbD_or,
      BitVec.getLsbD_signExtend, List.any_cons]
    have hk64 : k < 64 := by omega
    simp [hk, hk64, Bool.or_assoc]

/-- `granularity` is defined for interleaved ranges. -/
theorem Proper.granularity_ok (hr : Proper r) (h : r.masks ≠ []) :
    ∃ g, r.granularity = .ok g ∧ 1#64 ≤ g := by
  obtain ⟨m, hm, k, hk, hbit⟩ := hr.low h
  set c := r.masks.foldl (fun c m => ((c.signExtend 64) ||| m).setWidth 32) (0 : BitVec 32) with hc
  have hcbit : (c.signExtend 64).getLsbD k = true := by
    have hk64 : k < 64 := by omega
    rw [BitVec.getLsbD_signExtend, if_pos hk, hc, getLsbD_combined hk]
    have hany : (r.masks.any fun m => m.getLsbD k) = true := List.any_eq_true.mpr ⟨m, hm, hbit⟩
    rw [hany]
    simp [hk64]
  have hlt : ctz64 (c.signExtend 64) < 64 := by
    have hle := ctz64_le_of_getLsbD hcbit
    omega
  refine ⟨1#64 <<< ctz64 (c.signExtend 64), ?_, ?_⟩
  · unfold AddrRange.granularity
    rw [if_pos (show r.interleaved = true from decide_eq_true h)]
    dsimp only
    rw [← hc, require_ok (decide_eq_true hlt)]
    rfl
  · rw [BitVec.le_def, BitVec.toNat_shiftLeft, Nat.shiftLeft_eq]
    have hpow : 2 ^ ctz64 (c.signExtend 64) < 2 ^ 64 := Nat.pow_lt_pow_right (by decide) hlt
    have hpos : 0 < 2 ^ ctz64 (c.signExtend 64) := Nat.two_pow_pos _
    simp only [BitVec.toNat_ofNat]
    omega

/-! ## Ranges in order -/

/-- `y` is behind `x`: its interval starts where that of `x` has ended, or both are of one
group. -/
def Follows (x y : AddrRange) : Prop :=
  x.end_ ≤ y.start ∨
    x.masks ≠ [] ∧ x.start = y.start ∧ x.end_ = y.end_ ∧ x.masks = y.masks ∧
      x.intlvMatch < y.intlvMatch

theorem mergesWith_iff :
    s.mergesWith r = true ↔ r.start = s.start ∧ r.end_ = s.end_ ∧ r.masks = s.masks := by
  unfold AddrRange.mergesWith
  rw [Bool.and_eq_true, Bool.and_eq_true, decide_eq_true_eq, decide_eq_true_eq, decide_eq_true_eq,
    and_assoc]

theorem lt_iff :
    s.lt r = true ↔ s.start < r.start ∨
      s.start = r.start ∧ s.masks ≠ [] ∧ (r.masks = [] ∨ s.intlvMatch < r.intlvMatch) := by
  unfold AddrRange.lt AddrRange.interleaved
  by_cases hstart : s.start = r.start
  · have hirr : ¬r.start < r.start := by bv_omega
    rw [if_neg (not_not.mpr hstart), hstart]
    by_cases hs : s.masks = []
    · simp [hs, hirr]
    · by_cases hr : r.masks = []
      · simp [hs, hr]
      · simp [hs, hr, hirr]
  · rw [if_pos hstart, decide_eq_true_eq]
    constructor
    · exact Or.inl
    · rintro (h | ⟨h, -⟩)
      · exact h
      · exact absurd h hstart

theorem Follows.start_le {y : AddrRange} (hx : Proper x) (h : Follows x y) :
    x.start ≤ y.start := by
  rcases h with h | ⟨-, hs, -⟩
  · have := hx.nonempty
    bv_omega
  · bv_omega

/-- What is behind a key stays behind it. -/
theorem Follows.lt_trans {y : AddrRange} (hx : Proper x) (h : Follows x y) (hr : r.lt x = true) :
    r.lt y = true := by
  have hne := hx.nonempty
  rw [lt_iff] at hr ⊢
  rcases h with h | ⟨hm, hs, -, hmasks, hlt⟩
  · left
    rcases hr with hr | ⟨hr, -⟩
    · bv_omega
    · bv_omega
  · rcases hr with hr | ⟨hr, hrm, hr'⟩
    · left
      bv_omega
    · right
      refine ⟨hr.trans hs, hrm, .inr ?_⟩
      rcases hr' with hr' | hr'
      · exact absurd hr' hm
      · bv_omega

/-- Ranges in order contain no common address. -/
theorem Follows.disjoint {y : AddrRange} (h : Follows x y) (hx : x.contains a = .ok true)
    (hy : y.contains a = .ok true) : False := by
  obtain ⟨hxs, hxe, hxsel⟩ := contains_iff.mp hx
  obtain ⟨hys, hye, hysel⟩ := contains_iff.mp hy
  rcases h with h | ⟨-, -, -, hmasks, hlt⟩
  · bv_omega
  · unfold AddrRange.sel at hxsel hysel
    rw [hmasks, hysel, Except.ok.injEq] at hxsel
    have heq : y.intlvMatch = x.intlvMatch := by
      apply BitVec.eq_of_toNat_eq
      have hval := congrArg BitVec.toNat hxsel
      rw [BitVec.toNat_setWidth, BitVec.toNat_setWidth] at hval
      have h1 := x.intlvMatch.isLt
      have h2 := y.intlvMatch.isLt
      omega
    rw [heq] at hlt
    bv_omega

/-! ## The search -/

variable {V : Type} {tree : List (Node V)} {n : Node V} {cond : Cond} {m : AddrRangeMap V}

/-- The stored ranges are proper and in order. -/
structure InOrder (tree : List (Node V)) : Prop where
  follows : tree.Pairwise fun x y => Follows x.range y.range
  proper : ∀ n ∈ tree, Proper n.range

/-- No address has two owners. -/
theorem InOrder.owner_unique (ht : InOrder tree) {n' : Node V} (hn : n ∈ tree) (hn' : n' ∈ tree)
    (h : n.range.contains a = .ok true) (h' : n'.range.contains a = .ok true) : n = n' := by
  let R : Node V → Node V → Prop := fun x y =>
    x.range.contains a = .ok true → y.range.contains a = .ok true → x = y
  have hsymm : Std.Symm R := ⟨fun x y hxy hy hx => (hxy hx hy).symm⟩
  have hR : tree.Pairwise R := ht.follows.imp fun hf hx hy => (hf.disjoint hx hy).elim
  exact hR.forall_of_forall (fun x _ _ _ => rfl) hn hn' h h'

/-- The upper bound splits the tree by the comparison with the key. -/
theorem InOrder.split (ht : InOrder tree) (r : AddrRange) :
    nodesUpTo tree r = tree.filter (fun n => !r.lt n.range) ∧
      nodesAfter tree r = tree.filter (fun n => r.lt n.range) := by
  have hmono : tree.Pairwise fun x y => (!r.lt y.range) = true → (!r.lt x.range) = true := by
    apply ht.follows.imp_of_mem
    intro x y hx _ hxy
    rw [Bool.not_eq_true', Bool.not_eq_true']
    intro hy
    by_contra hx'
    rw [hxy.lt_trans (ht.proper x hx) (by simpa using hx')] at hy
    cases hy
  obtain ⟨h1, h2⟩ := Ordered.takeWhile_eq_filter hmono
  refine ⟨h1, ?_⟩
  unfold nodesAfter
  rw [h2]
  simp only [Bool.not_not]

theorem InOrder.mem_nodesUpTo (ht : InOrder tree) :
    n ∈ nodesUpTo tree r ↔ n ∈ tree ∧ r.lt n.range = false := by
  rw [(ht.split r).1, List.mem_filter, Bool.not_eq_true']

theorem InOrder.mem_nodesAfter (ht : InOrder tree) :
    n ∈ nodesAfter tree r ↔ n ∈ tree ∧ r.lt n.range = true := by
  rw [(ht.split r).2, List.mem_filter]

theorem start_le_of_not_lt (h : r.lt x = false) : x.start ≤ r.start := by
  by_contra hlt
  have htrue : r.lt x = true := lt_iff.mpr (.inl (by bv_omega))
  rw [htrue] at h
  cases h

/-- **The backward walk** passes every range that reaches the start of the key. -/
theorem walkBack_spec (cond : Cond) {l : List (Node V)}
    (hfollows : l.Pairwise fun x y => Follows y.range x.range) (hproper : ∀ n ∈ l, Proper n.range)
    (hstart : ∀ n ∈ l, n.range.start ≤ r.start)
    (htotal : ∀ n ∈ l, cond n.range = .ok true ∨ cond n.range = .ok false)
    (htouch : ∀ n ∈ l, cond n.range = .ok true → r.start < n.range.end_) :
    ∃ res, walkBack cond l = .ok res ∧
      (∀ n, res = some n → n ∈ l ∧ cond n.range = .ok true) ∧
      (res = none → ∀ n ∈ l, cond n.range = .ok false) := by
  induction l with
  | nil =>
    refine ⟨none, rfl, ?_, ?_⟩
    · intro n hn
      cases hn
    · intro _ n hn
      cases hn
  | cons i rest ih =>
    obtain ⟨hhead, htail⟩ := List.pairwise_cons.mp hfollows
    rcases htotal i List.mem_cons_self with hi | hi
    · refine ⟨some i, ?_, ?_, ?_⟩
      · unfold walkBack
        rw [hi]
        rfl
      · intro n hn
        obtain rfl := Option.some.inj hn
        exact ⟨List.mem_cons_self, hi⟩
      · intro hn
        cases hn
    · obtain ⟨res, hres, hsome, hnone⟩ := ih htail
        (fun n hn => hproper n (List.mem_cons_of_mem i hn))
        (fun n hn => hstart n (List.mem_cons_of_mem i hn))
        (fun n hn => htotal n (List.mem_cons_of_mem i hn))
        (fun n hn => htouch n (List.mem_cons_of_mem i hn))
      cases rest with
      | nil =>
        refine ⟨none, ?_, ?_, ?_⟩
        · unfold walkBack
          rw [hi]
          rfl
        · intro n hn
          cases hn
        · intro _ n hn
          rw [List.mem_singleton.mp hn]
          exact hi
      | cons next rest =>
        by_cases hmerge : next.range.mergesWith i.range = true
        · refine ⟨res, ?_, ?_, ?_⟩
          · rw [walkBack, hi]
            show (if next.range.mergesWith i.range = true then _ else _) = _
            rw [if_pos hmerge]
            exact hres
          · intro n hn
            exact ⟨List.mem_cons_of_mem i (hsome n hn).1, (hsome n hn).2⟩
          · intro hn n hmem
            rcases List.mem_cons.mp hmem with rfl | hmem
            · exact hi
            · exact hnone hn n hmem
        · refine ⟨none, ?_, ?_, ?_⟩
          · rw [walkBack, hi]
            show (if next.range.mergesWith i.range = true then _ else _) = _
            rw [if_neg hmerge]
            rfl
          · intro n hn
            cases hn
          · -- a range that reaches the start is of the group of `i`, and so is `next`
            intro _ n hmem
            rcases List.mem_cons.mp hmem with rfl | hmem
            · exact hi
            · rcases htotal n (List.mem_cons_of_mem i hmem) with hn | hn
              · exfalso
                apply hmerge
                have hreach := htouch n (List.mem_cons_of_mem i hmem) hn
                have histart := hstart i List.mem_cons_self
                have hnn := (hproper n (List.mem_cons_of_mem i hmem)).nonempty
                rcases hhead n hmem with hend | ⟨-, hs, he, hm, -⟩
                · bv_omega
                · have hnext := hhead next List.mem_cons_self
                  have hnextp := hproper next (List.mem_cons_of_mem i List.mem_cons_self)
                  have hle := hnext.start_le hnextp
                  rcases List.mem_cons.mp hmem with rfl | hmem'
                  · exact mergesWith_iff.mpr ⟨hs.symm, he.symm, hm.symm⟩
                  · rcases (List.pairwise_cons.mp htail).1 n hmem' with
                      hend | ⟨-, hs', he', hm', -⟩
                    · bv_omega
                    · exact mergesWith_iff.mpr
                        ⟨hs.symm.trans hs', he.symm.trans he', hm.symm.trans hm'⟩
              · exact hn

/-- **The search in the tree** finds an entry that meets the condition when there is one.
The condition must be defined, hold only for ranges that reach the start of the key, and
hold for the first node behind the key when it holds for any behind it. -/
theorem findInTree_spec (ht : InOrder tree)
    (htotal : ∀ n ∈ tree, cond n.range = .ok true ∨ cond n.range = .ok false)
    (htouch : ∀ n ∈ tree, cond n.range = .ok true → r.start < n.range.end_)
    (hafter : ∀ n ∈ nodesAfter tree r, cond n.range = .ok true →
      ∀ n' ∈ (nodesAfter tree r).head?, cond n'.range = .ok true) :
    ∃ res, findInTree tree r cond = .ok res ∧
      (∀ n, res = some n → n ∈ tree ∧ cond n.range = .ok true) ∧
      (res = none → ∀ n ∈ tree, cond n.range = .ok false) := by
  have hup : ∀ n ∈ (nodesUpTo tree r).reverse, n ∈ tree ∧ r.lt n.range = false := by
    intro n hn
    exact ht.mem_nodesUpTo.mp (List.mem_reverse.mp hn)
  have hreverse : (nodesUpTo tree r).reverse.Pairwise fun x y => Follows y.range x.range := by
    rw [List.pairwise_reverse, (ht.split r).1]
    exact ht.follows.filter _
  obtain ⟨res, hres, hsome, hnone⟩ := walkBack_spec cond (r := r) hreverse
    (fun n hn => ht.proper n (hup n hn).1)
    (fun n hn => start_le_of_not_lt (hup n hn).2) (fun n hn => htotal n (hup n hn).1)
    (fun n hn => htouch n (hup n hn).1)
  -- nothing behind the key meets the condition when the first node does not
  have hwalk : (∀ n ∈ nodesAfter tree r, cond n.range = .ok false) →
      res = none → ∀ n ∈ tree, cond n.range = .ok false := by
    intro hno hn n hmem
    cases hlt : r.lt n.range with
    | true => exact hno n (ht.mem_nodesAfter.mpr ⟨hmem, hlt⟩)
    | false => exact hnone hn n (List.mem_reverse.mpr (ht.mem_nodesUpTo.mpr ⟨hmem, hlt⟩))
  unfold findInTree
  cases hsuf : nodesAfter tree r with
  | nil =>
    refine ⟨res, hres, fun n hn => ⟨(hup n (hsome n hn).1).1, (hsome n hn).2⟩, hwalk ?_⟩
    rw [hsuf]
    intro n hn
    cases hn
  | cons next suf =>
    have hnext : next ∈ nodesAfter tree r := by
      rw [hsuf]
      exact List.mem_cons_self
    have hmem := (ht.mem_nodesAfter.mp hnext).1
    rcases htotal next hmem with hcond | hcond
    · refine ⟨some next, ?_, ?_, ?_⟩
      · dsimp only
        rw [hcond]
        rfl
      · intro n hn
        obtain rfl := Option.some.inj hn
        exact ⟨hmem, hcond⟩
      · intro hn
        cases hn
    · refine ⟨res, ?_, fun n hn => ⟨(hup n (hsome n hn).1).1, (hsome n hn).2⟩, hwalk ?_⟩
      · dsimp only
        rw [hcond]
        exact hres
      · intro n hn
        rcases htotal n (ht.mem_nodesAfter.mp hn).1 with h | h
        · have hfirst := hafter n hn h next (by rw [hsuf]; rfl)
          rw [hcond] at hfirst
          cases hfirst
        · exact h

/-! ## The condition of `contains` -/

theorem contains_of_plain (hE : Proper E) (hm : E.masks = []) :
    E.contains a = .ok true ↔ E.start ≤ a ∧ a < E.end_ := by
  rw [contains_iff]
  refine and_congr_right fun _ => and_iff_left ?_
  unfold AddrRange.sel
  rw [hm, hE.intlvMatch_of_plain hm]
  rfl

/-- `isSubset` panics on an interleaved range. -/
theorem isSubset_of_interleaved (h : r.masks ≠ []) (E : AddrRange) :
    r.isSubset E = .error .cannotTestSubset := by
  unfold AddrRange.isSubset
  rw [if_pos (show r.interleaved = true from decide_eq_true h)]

/-- `isSubset` of a range that is not interleaved is defined. -/
theorem isSubset_total (hr : r.masks = []) (hE : Proper E) :
    r.isSubset E = .ok true ∨ r.isSubset E = .ok false := by
  have hinter : r.interleaved = false := decide_eq_false (not_not.mpr hr)
  unfold AddrRange.isSubset
  rw [hinter]
  by_cases hm : E.masks = []
  · have hE' : E.interleaved = false := decide_eq_false (not_not.mpr hm)
    rw [hE']
    show Except.ok (decide _ && decide _) = _ ∨ Except.ok (decide _ && decide _) = _
    cases decide (E.start ≤ r.start) && decide (r.end_ ≤ E.end_)
    · exact .inr rfl
    · exact .inl rfl
  · have hE' : E.interleaved = true := decide_eq_true hm
    rw [hE']
    simp only [Bool.false_eq_true, if_false, if_true]
    rcases hE.contains_total r.start with h1 | h1
    · rw [h1]
      rcases hE.contains_total (r.end_ - 1) with h2 | h2
      · obtain ⟨g, hg, -⟩ := hE.granularity_ok hm
        have hsize : r.size = .ok ((r.end_ - r.start) >>> 0) := by
          unfold AddrRange.size
          rw [hr]
          rfl
        rw [h2, hsize, hg]
        show Except.ok (decide _) = _ ∨ Except.ok (decide _) = _
        cases decide ((r.end_ - r.start) >>> 0 ≤ g)
        · exact .inr rfl
        · exact .inl rfl
      · rw [h2]
        exact .inr rfl
    · rw [h1]
      exact .inr rfl

/-- A superset contains the first address. -/
theorem contains_of_isSubset (hne : r.start < r.end_) (hE : Proper E) (h : r.isSubset E = .ok true)
    :
    E.contains r.start = .ok true := by
  unfold AddrRange.isSubset at h
  split at h
  · cases h
  · by_cases hm : E.masks = []
    · have hE' : E.interleaved = false := decide_eq_false (not_not.mpr hm)
      rw [hE'] at h
      have hbool := Except.ok.inj h
      rw [Bool.and_eq_true, decide_eq_true_eq, decide_eq_true_eq] at hbool
      rw [contains_of_plain hE hm]
      refine ⟨hbool.1, ?_⟩
      bv_omega
    · have hE' : E.interleaved = true := decide_eq_true hm
      rw [hE', if_pos rfl] at h
      obtain ⟨first, hfirst, h⟩ := bind_eq_ok.mp h
      cases first with
      | true => exact hfirst
      | false => cases h

/-- A single address is a subset of the ranges that contain it. -/
theorem isSubset_of_contains (hE : Proper E) (h : E.contains a = .ok true) :
    (rangeSize a 1).isSubset E = .ok true := by
  obtain ⟨hs, he, -⟩ := contains_iff.mp h
  have hlast : a + 1 - 1 = a := by simp
  have hsize : (rangeSize a 1).size = .ok 1 := by
    show Except.ok ((a + 1 - a) >>> 0) = _
    rw [Except.ok.injEq]
    bv_omega
  unfold AddrRange.isSubset
  show (if false = true then _ else _) = _
  rw [if_neg (by simp)]
  by_cases hm : E.masks = []
  · have hE' : E.interleaved = false := decide_eq_false (not_not.mpr hm)
    rw [hE', if_neg (by simp)]
    show Except.ok (decide (E.start ≤ a) && decide (a + 1 ≤ E.end_)) = _
    have hnext : a + 1 ≤ E.end_ := by
      bv_omega
    rw [decide_eq_true hs, decide_eq_true hnext]
    rfl
  · obtain ⟨g, hg, hg1⟩ := hE.granularity_ok hm
    have hE' : E.interleaved = true := decide_eq_true hm
    rw [hE', if_pos rfl]
    refine bind_eq_ok.mpr ⟨true, h, ?_⟩
    rw [if_neg (by simp)]
    refine bind_eq_ok.mpr ⟨true, ?_, ?_⟩
    · show E.contains (a + 1 - 1) = _
      rw [hlast]
      exact h
    · rw [if_neg (by simp)]
      refine bind_eq_ok.mpr ⟨1, hsize, bind_eq_ok.mpr ⟨g, hg, ?_⟩⟩
      exact congrArg Except.ok (decide_eq_true hg1)

/-! ## The condition of `intersects` -/

/-- The intervals have an address in common. -/
def Overlaps (s r : AddrRange) : Prop := s.start < r.end_ ∧ r.start < s.end_

/-- Ranges whose intersection can be tested: their intervals lie apart, none of them is
interleaved, or they are of one group. -/
def Comparable (s r : AddrRange) : Prop :=
  Overlaps s r → s.masks = [] ∧ r.masks = [] ∨ s.mergesWith r = true

instance (s r : AddrRange) : Decidable (Comparable s r) :=
  inferInstanceAs (Decidable (_ ∧ _ → _))

theorem not_overlaps_iff :
    ¬Overlaps s r ↔ r.end_ ≤ s.start ∨ s.end_ ≤ r.start := by
  unfold Overlaps
  rw [not_and_or, BitVec.not_lt, BitVec.not_lt]

theorem intersects_apart (h : ¬Overlaps s r) : s.intersects r = .ok false := by
  unfold AddrRange.intersects
  rw [if_pos (not_overlaps_iff.mp h)]

theorem intersects_plain (h : Overlaps s r) (hs : s.masks = []) (hr : r.masks = []) :
    s.intersects r = .ok true := by
  unfold AddrRange.intersects
  rw [if_neg fun hcon => not_overlaps_iff.mpr hcon h]
  unfold AddrRange.interleaved
  simp [hs, hr]

/-- Two ranges of one group: by the match values, unless the range has size one. -/
theorem intersects_group (hr : Proper r) (h : Overlaps s r) (hm : s.masks ≠ [])
    (hmerge : s.mergesWith r = true) :
    s.intersects r =
      if (r.end_ - r.start) >>> r.masks.length = 1 then s.contains r.start
      else .ok (decide (s.intlvMatch = r.intlvMatch)) := by
  have hsize : r.size = .ok ((r.end_ - r.start) >>> r.masks.length) := by
    unfold AddrRange.size
    rw [require_ok (decide_eq_true (show r.masks.length < 64 by have := hr.few; omega))]
    rfl
  have hinter : s.interleaved = true := decide_eq_true hm
  unfold AddrRange.intersects
  rw [if_neg fun hcon => not_overlaps_iff.mpr hcon h, hinter, if_neg (by simp), hsize]
  show (if _ then _ else _) = _
  rw [if_pos hmerge]
  rfl

theorem intersects_total (hr : Proper r) (hc : Comparable s r) :
    s.intersects r = .ok true ∨ s.intersects r = .ok false := by
  by_cases h : Overlaps s r
  · by_cases hm : s.masks = []
    · rcases hc h with ⟨-, hr'⟩ | hmerge
      · exact .inl (intersects_plain h hm hr')
      · exact .inl (intersects_plain h hm ((mergesWith_iff.mp hmerge).2.2.trans hm))
    · rcases hc h with ⟨hs, -⟩ | hmerge
      · exact absurd hs hm
      · rw [intersects_group hr h hm hmerge]
        split
        · have hfew : s.masks.length ≤ 32 := by
            rw [← (mergesWith_iff.mp hmerge).2.2]
            exact hr.few
          unfold AddrRange.contains
          split
          · obtain ⟨sel, hsel, -⟩ := sel_eq hfew r.start
            rw [hsel]
            show Except.ok (decide _) = _ ∨ Except.ok (decide _) = _
            cases decide (sel = s.intlvMatch.setWidth 32)
            · exact .inr rfl
            · exact .inl rfl
          · exact .inr rfl
        · cases decide (s.intlvMatch = r.intlvMatch)
          · exact .inr rfl
          · exact .inl rfl
  · exact .inr (intersects_apart h)

theorem overlaps_of_intersects (h : s.intersects r = .ok true) :
    Overlaps s r := by
  by_contra hno
  rw [intersects_apart hno] at h
  cases h

/-! ## Lookup with the cache -/

theorem nodeAt_eq (hids : (tree.map Node.id).Nodup) (hn : n ∈ tree) :
    nodeAt tree n.id = some n := by
  unfold nodeAt
  induction tree with
  | nil => cases hn
  | cons x tree ih =>
    obtain ⟨hx, hrest⟩ := List.nodup_cons.mp hids
    rcases List.mem_cons.mp hn with rfl | hn
    · rw [List.find?_cons_of_pos (by simp)]
    · have hne : x.id ≠ n.id := fun heq => hx (heq ▸ List.mem_map_of_mem hn)
      rw [List.find?_cons_of_neg (by simp [hne])]
      exact ih hrest hn

/-- Every cached iterator belongs to a node of the tree. -/
def Live (tree : List (Node V)) (cache : List ℕ) : Prop := ∀ c ∈ cache, ∃ n ∈ tree, n.id = c

/-- The search in a cache of live iterators. -/
theorem findInCache_spec (hids : (tree.map Node.id).Nodup)
    (htotal : ∀ n ∈ tree, cond n.range = .ok true ∨ cond n.range = .ok false) {cache : List ℕ}
    (hlive : Live tree cache) :
    ∃ res, findInCache tree cond cache = .ok res ∧
      ∀ n, res = some n → n ∈ tree ∧ cond n.range = .ok true := by
  induction cache with
  | nil =>
    refine ⟨none, rfl, ?_⟩
    intro n hn
    cases hn
  | cons c cache ih =>
    obtain ⟨n, hn, rfl⟩ := hlive _ List.mem_cons_self
    obtain ⟨res, hres, hsome⟩ := ih fun c hc => hlive c (List.mem_cons_of_mem _ hc)
    unfold findInCache
    rw [nodeAt_eq hids hn]
    rcases htotal n hn with hcond | hcond
    · refine ⟨some n, ?_, ?_⟩
      · show (cond n.range >>= _) = _
        rw [hcond]
        rfl
      · intro n' hn'
        obtain rfl := Option.some.inj hn'
        exact ⟨hn, hcond⟩
    · refine ⟨res, ?_, hsome⟩
      show (cond n.range >>= _) = _
      rw [hcond]
      exact hres

/-- Nodes can be told apart, and every cached iterator is live. -/
structure Linked (m : AddrRangeMap V) : Prop where
  ids : (m.tree.map Node.id).Nodup
  fresh : ∀ n ∈ m.tree, n.id < m.nextId
  live : Live m.tree m.cache

/-- The map with a state that every operation keeps: ranges in order, live iterators. -/
structure MapInv (m : AddrRangeMap V) : Prop extends Linked m where
  inOrder : InOrder m.tree

/-- What a condition must satisfy for the search to be complete. -/
structure Searchable (tree : List (Node V)) (r : AddrRange) (cond : Cond) : Prop where
  total : ∀ n ∈ tree, cond n.range = .ok true ∨ cond n.range = .ok false
  touch : ∀ n ∈ tree, cond n.range = .ok true → r.start < n.range.end_
  after : ∀ n ∈ nodesAfter tree r, cond n.range = .ok true →
    ∀ n' ∈ (nodesAfter tree r).head?, cond n'.range = .ok true

theorem live_addNewEntry {cache : List ℕ} (hlive : Live tree cache) (hn : n ∈ tree)
    (maxCacheSize : ℕ) :
    Live tree (addNewEntryToCache maxCacheSize cache n.id) := by
  have hcons : ∀ {l : List ℕ}, (∀ c ∈ l, c ∈ cache) → Live tree (n.id :: l) := by
    intro l hl c hc
    rcases List.mem_cons.mp hc with rfl | hc
    · exact ⟨n, hn, rfl⟩
    · exact hlive c (hl c hc)
  unfold addNewEntryToCache
  split
  · split
    · exact hcons fun c hc => List.mem_of_mem_dropLast hc
    · exact hcons fun c hc => hc
  · exact hlive

/-- The search in the tree, for any condition that is defined. -/
theorem findInTree_total (htotal : ∀ n ∈ tree, cond n.range = .ok true ∨ cond n.range = .ok false) :
    ∃ res, findInTree tree r cond = .ok res ∧
      ∀ n, res = some n → n ∈ tree ∧ cond n.range = .ok true := by
  have hwalk : ∀ l : List (Node V), (∀ n ∈ l, n ∈ tree) → ∃ res, walkBack cond l = .ok res ∧
      ∀ n, res = some n → n ∈ tree ∧ cond n.range = .ok true := by
    intro l hl
    induction l with
    | nil => exact ⟨none, rfl, nofun⟩
    | cons i rest ih =>
      have hi := hl i List.mem_cons_self
      rcases htotal i hi with hcond | hcond
      · refine ⟨some i, by unfold walkBack; rw [hcond]; rfl, ?_⟩
        intro n hn
        obtain rfl := Option.some.inj hn
        exact ⟨hi, hcond⟩
      · cases rest with
        | nil => exact ⟨none, by rw [walkBack, hcond]; rfl, nofun⟩
        | cons next rest =>
          obtain ⟨res, hres, hsome⟩ := ih fun n hn => hl n (List.mem_cons_of_mem i hn)
          by_cases hmerge : next.range.mergesWith i.range = true
          · refine ⟨res, ?_, hsome⟩
            rw [walkBack, hcond]
            show (if next.range.mergesWith i.range = true then _ else _) = _
            rw [if_pos hmerge]
            exact hres
          · refine ⟨none, ?_, nofun⟩
            rw [walkBack, hcond]
            show (if next.range.mergesWith i.range = true then _ else _) = _
            rw [if_neg hmerge]
            rfl
  have hback := hwalk (nodesUpTo tree r).reverse fun n hn =>
    (List.takeWhile_sublist _).subset (List.mem_reverse.mp hn)
  unfold findInTree
  split
  · exact hback
  · rename_i next suf hsuf
    have hnext : next ∈ tree := by
      apply (List.dropWhile_sublist _).subset
      show next ∈ nodesAfter tree r
      rw [hsuf]
      exact List.mem_cons_self
    rcases htotal next hnext with hcond | hcond
    · refine ⟨some next, by rw [hcond]; rfl, ?_⟩
      intro n hn
      obtain rfl := Option.some.inj hn
      exact ⟨hnext, hcond⟩
    · obtain ⟨res, hres, hsome⟩ := hback
      exact ⟨res, by rw [hcond]; exact hres, hsome⟩

/-- **`find`** returns only entries that meet the condition, and changes only the
cache. -/
theorem find_total (hm : MapInv m) (maxCacheSize : ℕ) (r : AddrRange)
    (htotal : ∀ n ∈ m.tree, cond n.range = .ok true ∨ cond n.range = .ok false) :
    ∃ res cache, m.find maxCacheSize r cond = .ok (res, { m with cache := cache }) ∧
      Live m.tree cache ∧ (m.cache = [] → maxCacheSize = 0 → cache = []) ∧
      (∀ n, res = some n → n ∈ m.tree ∧ cond n.range = .ok true) ∧
      (res = none → findInTree m.tree r cond = .ok none) := by
  obtain ⟨hit, hhit, hhit'⟩ := findInCache_spec hm.ids htotal hm.live
  unfold AddrRangeMap.find
  rw [hhit]
  cases hit with
  | some n =>
    obtain ⟨hn, hcond⟩ := hhit' n rfl
    refine ⟨some n, n.id :: m.cache.erase n.id, rfl, ?_, ?_, ?_, nofun⟩
    · intro c hc
      rcases List.mem_cons.mp hc with rfl | hc
      · exact ⟨n, hn, rfl⟩
      · exact hm.live c (List.mem_of_mem_erase hc)
    · intro hnil
      rw [hnil] at hhit
      cases hhit
    · intro n' hn'
      obtain rfl := Option.some.inj hn'
      exact ⟨hn, hcond⟩
  | none =>
    obtain ⟨res, hres, hsome⟩ := findInTree_total (r := r) htotal
    cases res with
    | none =>
      refine ⟨none, m.cache, ?_, hm.live, fun h _ => h, hsome, fun _ => hres⟩
      show (findInTree m.tree r cond >>= _) = _
      rw [hres]
      rfl
    | some n =>
      refine ⟨some n, addNewEntryToCache maxCacheSize m.cache n.id, ?_,
        live_addNewEntry hm.live (hsome n rfl).1 maxCacheSize, ?_, hsome, nofun⟩
      · show (findInTree m.tree r cond >>= _) = _
        rw [hres]
        rfl
      · intro hnil hzero
        unfold addNewEntryToCache
        rw [if_neg (not_not.mpr hzero)]
        exact hnil

/-- **`find` is complete** for conditions the search is made for. -/
theorem find_spec (hm : MapInv m) (maxCacheSize : ℕ) (hs : Searchable m.tree r cond) :
    ∃ res cache, m.find maxCacheSize r cond = .ok (res, { m with cache := cache }) ∧
      Live m.tree cache ∧ (m.cache = [] → maxCacheSize = 0 → cache = []) ∧
      (∀ n, res = some n → n ∈ m.tree ∧ cond n.range = .ok true) ∧
      (res = none → ∀ n ∈ m.tree, cond n.range = .ok false) := by
  obtain ⟨res, cache, hfind, hlive, hzero, hsome, hnone⟩ := find_total hm maxCacheSize r hs.total
  refine ⟨res, cache, hfind, hlive, hzero, hsome, ?_⟩
  intro hres
  obtain ⟨res', hres', -, hnone'⟩ := findInTree_spec hm.inOrder hs.total hs.touch hs.after
  rw [hnone hres] at hres'
  exact hnone' (Except.ok.inj hres').symm

/-- Queries for ranges that are not interleaved and not empty can be searched for. -/
theorem searchable_contains (ht : InOrder tree) (hr : r.masks = []) (hne : r.start < r.end_) :
    Searchable tree r r.isSubset := by
  refine ⟨fun n hn => isSubset_total hr (ht.proper n hn), ?_, ?_⟩
  · intro n hn hcond
    exact (contains_iff.mp (contains_of_isSubset hne (ht.proper n hn) hcond)).2.1
  · -- a range behind the key starts later
    intro n hn hcond
    exfalso
    obtain ⟨hmem, hlt⟩ := ht.mem_nodesAfter.mp hn
    have hstart := (contains_iff.mp (contains_of_isSubset hne (ht.proper n hmem) hcond)).1
    rcases lt_iff.mp hlt with h | ⟨-, h, -⟩
    · bv_omega
    · exact h hr

/-- **A query finds the only superset** of a range that is not interleaved and not empty. -/
theorem contains_spec (hm : MapInv m) (maxCacheSize : ℕ) (hr : r.masks = [])
    (hne : r.start < r.end_) :
    ∃ res cache, m.contains maxCacheSize r = .ok (res, { m with cache := cache }) ∧
      Live m.tree cache ∧ ∀ n, res = some n ↔ n ∈ m.tree ∧ r.isSubset n.range = .ok true := by
  obtain ⟨res, cache, hfind, hlive, -, hsome, hnone⟩ :=
    find_spec hm maxCacheSize (searchable_contains hm.inOrder hr hne)
  refine ⟨res, cache, hfind, hlive, fun n => ⟨hsome n, ?_⟩⟩
  rintro ⟨hn, hsub⟩
  cases res with
  | none =>
    rw [hnone rfl n hn] at hsub
    cases hsub
  | some n' =>
    obtain ⟨hn', hsub'⟩ := hsome n' rfl
    exact congrArg some (hm.inOrder.owner_unique hn' hn
      (contains_of_isSubset hne (hm.inOrder.proper n' hn') hsub')
      (contains_of_isSubset hne (hm.inOrder.proper n hn) hsub))

/-- A single address is a range that is not empty, unless it wraps around. -/
theorem rangeSize_one_nonempty (ha : a ≠ BitVec.allOnes 64) :
    (rangeSize a 1).start < (rangeSize a 1).end_ := by
  show a < a + 1
  have hmax : a ≠ 18446744073709551615#64 := ha
  bv_omega

theorem isSubset_iff_contains (ha : a ≠ BitVec.allOnes 64) (hE : Proper E) :
    (rangeSize a 1).isSubset E = .ok true ↔ E.contains a = .ok true :=
  ⟨contains_of_isSubset (rangeSize_one_nonempty ha) hE, isSubset_of_contains hE⟩

/-- Ranges that can be compared with all stored ones can be tested for intersection. -/
theorem searchable_intersects (ht : InOrder tree) (hc : ∀ n ∈ tree, Comparable r n.range) :
    Searchable tree r r.intersects := by
  refine ⟨fun n hn => intersects_total (ht.proper n hn) (hc n hn), ?_, ?_⟩
  · intro n _ hcond
    exact (overlaps_of_intersects hcond).1
  · intro n hn hcond n' hn'
    obtain ⟨hmem, hlt⟩ := ht.mem_nodesAfter.mp hn
    have hover := overlaps_of_intersects hcond
    have hhead := List.mem_of_mem_head? hn'
    obtain ⟨hmem', hlt'⟩ := ht.mem_nodesAfter.mp hhead
    have hnonempty' := (ht.proper n' hmem').nonempty
    -- the first node behind the key is `n` or comes before it
    have hfirst : n' = n ∨ Follows n'.range n.range := by
      have hpair : (nodesAfter tree r).Pairwise fun x y => Follows x.range y.range := by
        rw [(ht.split r).2]
        exact ht.follows.filter _
      obtain ⟨rest, hrest⟩ := List.head?_eq_some_iff.mp hn'
      rw [hrest] at hn hpair
      rcases List.mem_cons.mp hn with rfl | hn
      · exact .inl rfl
      · exact .inr ((List.pairwise_cons.mp hpair).1 n hn)
    have hstart' : r.start ≤ n'.range.start := by
      rcases lt_iff.mp hlt' with h | ⟨h, -⟩ <;> bv_omega
    have hle : n'.range.start ≤ n.range.start := by
      rcases hfirst with rfl | h
      · bv_omega
      · exact h.start_le (ht.proper n' hmem')
    have hover' : Overlaps r n'.range := by
      obtain ⟨h1, h2⟩ := hover
      refine ⟨?_, ?_⟩ <;> bv_omega
    by_cases hrm : r.masks = []
    · rcases hc n' hmem' hover' with ⟨-, hm'⟩ | hmerge'
      · exact intersects_plain hover' hrm hm'
      · exact intersects_plain hover' hrm ((mergesWith_iff.mp hmerge').2.2.trans hrm)
    · rcases hc n hmem hover with ⟨h, -⟩ | hmerge
      · exact absurd h hrm
      · rcases hc n' hmem' hover' with ⟨h, -⟩ | hmerge'
        · exact absurd h hrm
        · obtain ⟨hs, he, hm⟩ := mergesWith_iff.mp hmerge
          obtain ⟨hs', he', hm'⟩ := mergesWith_iff.mp hmerge'
          rw [intersects_group (ht.proper n hmem) hover hrm hmerge, hs, he, hm] at hcond
          rw [intersects_group (ht.proper n' hmem') hover' hrm hmerge', hs', he', hm']
          split at hcond
          · rename_i hsize
            rw [if_pos hsize]
            exact hcond
          · -- equal match values, but `n` is behind the key
            exfalso
            have heq : r.intlvMatch = n.range.intlvMatch := of_decide_eq_true (Except.ok.inj hcond)
            rcases lt_iff.mp hlt with h | ⟨-, -, h | h⟩
            · rw [hs] at h
              bv_omega
            · exact hrm (hm.symm.trans h)
            · rw [heq] at h
              bv_omega

/-! ## The operations -/

section Operations

variable {cache : List ℕ} {m' : AddrRangeMap V} {maxCacheSize : ℕ} {a : MapAction V}

theorem MapInv.withCache (hm : MapInv m) (hlive : Live m.tree cache) :
    MapInv { m with cache := cache } :=
  ⟨⟨hm.ids, hm.fresh, hlive⟩, hm.inOrder⟩

theorem MapInv.uncached (hm : MapInv m) : MapInv { m with cache := [] } :=
  hm.withCache fun c hc => by cases hc

theorem treeInsert_withCache (r : AddrRange) (v : V) (cache : List ℕ) :
    AddrRangeMap.treeInsert ⟨m.tree, cache, m.nextId⟩ r v =
      { m.treeInsert r v with cache := cache } := by
  unfold AddrRangeMap.treeInsert
  dsimp only
  split <;> rfl

theorem nodesUpTo_append (tree : List (Node V)) (r : AddrRange) :
    nodesUpTo tree r ++ nodesAfter tree r = tree :=
  List.takeWhile_append_dropWhile

theorem mem_treeInsert {new : Node V} :
    n ∈ nodesUpTo tree r ++ new :: nodesAfter tree r ↔ n = new ∨ n ∈ tree := by
  conv_rhs => rw [← nodesUpTo_append tree r]
  simp only [List.mem_append, List.mem_cons]
  tauto

theorem Linked.treeInsert (hm : Linked m) (r : AddrRange) (v : V) :
    Linked (m.treeInsert r v) := by
  unfold AddrRangeMap.treeInsert
  split
  · exact hm
  · refine ⟨?_, ?_, ?_⟩
    · have hids := hm.ids
      rw [← nodesUpTo_append m.tree r, List.map_append] at hids
      show (List.map Node.id (_ ++ _ :: _)).Nodup
      rw [List.map_append, List.map_cons]
      refine List.nodup_middle.mpr (List.nodup_cons.mpr ⟨?_, hids⟩)
      intro hcon
      rw [← List.map_append, nodesUpTo_append] at hcon
      obtain ⟨n, hn, heq⟩ := List.mem_map.mp hcon
      have hlt := hm.fresh n hn
      rw [heq] at hlt
      exact Nat.lt_irrefl _ hlt
    · intro n hn
      show n.id < m.nextId + 1
      rcases mem_treeInsert.mp hn with rfl | hn
      · exact Nat.lt_succ_self _
      · exact Nat.lt_succ_of_lt (hm.fresh n hn)
    · intro c hc
      obtain ⟨n, hn, hid⟩ := hm.live c hc
      exact ⟨n, mem_treeInsert.mpr (.inr hn), hid⟩

/-- Removing nodes that no cached iterator belongs to. -/
theorem Linked.filter (hm : Linked m) (keep : Node V → Bool)
    (hlive : Live (m.tree.filter keep) cache) :
    Linked { m with cache := cache, tree := m.tree.filter keep } := by
  refine ⟨hm.ids.sublist (List.filter_sublist.map Node.id), ?_, hlive⟩
  intro n hn
  exact hm.fresh n (List.mem_filter.mp hn).1

/-- A new node in its place among the ranges it does not intersect. -/
theorem MapInv.treeInsert (hm : MapInv m) {v : V} (hr : Proper r)
    (hc : ∀ n ∈ m.tree, Comparable r n.range) (hno : ∀ n ∈ m.tree, r.intersects n.range = .ok false)
    :
    MapInv (m.treeInsert r v) := by
  refine ⟨hm.toLinked.treeInsert r v, ?_⟩
  unfold AddrRangeMap.treeInsert
  split
  · exact hm.inOrder
  · rename_i hequiv
    have hboth : ∀ n ∈ m.tree, r.lt n.range = true ∨ n.range.lt r = true := by
      intro n hn
      by_contra hnot
      apply hequiv
      rw [List.any_eq_true]
      refine ⟨n, hn, ?_⟩
      rw [not_or, Bool.not_eq_true, Bool.not_eq_true] at hnot
      rw [hnot.1, hnot.2]
      rfl
    have hgroup : ∀ n ∈ m.tree, ¬Overlaps r n.range ∨
        r.masks ≠ [] ∧ n.range.start = r.start ∧ n.range.end_ = r.end_ ∧ n.range.masks = r.masks := by
      intro n hn
      by_cases hover : Overlaps r n.range
      · right
        have hplain : ¬(r.masks = [] ∧ n.range.masks = []) := by
          rintro ⟨h1, h2⟩
          have hint := intersects_plain hover h1 h2
          rw [hno n hn] at hint
          cases hint
        rcases hc n hn hover with h | hmerge
        · exact absurd h hplain
        · obtain ⟨hs, he, hmasks⟩ := mergesWith_iff.mp hmerge
          exact ⟨fun h => hplain ⟨h, hmasks.trans h⟩, hs, he, hmasks⟩
      · exact .inl hover
    have hrne := hr.nonempty
    have hbefore : ∀ n ∈ nodesUpTo m.tree r, Follows n.range r := by
      intro n hn
      obtain ⟨hmem, hlt⟩ := hm.inOrder.mem_nodesUpTo.mp hn
      have hnr : n.range.lt r = true := (hboth n hmem).resolve_left (by rw [hlt]; simp)
      rcases hgroup n hmem with hapart | ⟨hmasks, hs, he, hmn⟩
      · left
        rcases not_overlaps_iff.mp hapart with h | h
        · exact h
        · rcases lt_iff.mp hnr with hlt' | ⟨heq, -⟩ <;> bv_omega
      · right
        refine ⟨by rw [hmn]; exact hmasks, hs, he, hmn, ?_⟩
        rcases lt_iff.mp hnr with hlt' | ⟨-, -, h | h⟩
        · rw [hs] at hlt'
          bv_omega
        · exact absurd h hmasks
        · exact h
    have hbehind : ∀ n ∈ nodesAfter m.tree r, Follows r n.range := by
      intro n hn
      obtain ⟨hmem, hlt⟩ := hm.inOrder.mem_nodesAfter.mp hn
      have hnne := (hm.inOrder.proper n hmem).nonempty
      rcases hgroup n hmem with hapart | ⟨hmasks, hs, he, hmn⟩
      · left
        rcases not_overlaps_iff.mp hapart with h | h
        · rcases lt_iff.mp hlt with hlt' | ⟨heq, -⟩ <;> bv_omega
        · exact h
      · right
        refine ⟨hmasks, hs.symm, he.symm, hmn.symm, ?_⟩
        rcases lt_iff.mp hlt with hlt' | ⟨-, -, h | h⟩
        · rw [hs] at hlt'
          bv_omega
        · exact absurd (hmn.symm.trans h) hmasks
        · exact h
    have hfollows := hm.inOrder.follows
    rw [← nodesUpTo_append m.tree r] at hfollows
    obtain ⟨hpre, hsuf, hcross⟩ := List.pairwise_append.mp hfollows
    refine ⟨?_, ?_⟩
    · refine List.pairwise_append.mpr ⟨hpre, List.pairwise_cons.mpr ⟨hbehind, hsuf⟩, ?_⟩
      intro x hx y hy
      rcases List.mem_cons.mp hy with rfl | hy
      · exact hbefore x hx
      · exact hcross x hx y hy
    · intro n hn
      rcases mem_treeInsert.mp hn with rfl | hn
      · exact hr
      · exact hm.inOrder.proper n hn

/-- **`insert`** keeps the ranges in order, and the cache has no influence on it. -/
theorem insert_spec (hm : MapInv m) (maxCacheSize : ℕ) (v : V) (hr : Proper r)
    (hc : ∀ n ∈ m.tree, Comparable r n.range) :
    ∃ m', m.insert maxCacheSize r v = .ok m' ∧ MapInv m' ∧
      AddrRangeMap.insert { m with cache := [] } 0 r v = .ok { m' with cache := [] } := by
  have hs := searchable_intersects hm.inOrder hc
  obtain ⟨res, cache, hfind, hlive, -, hsome, hnone⟩ := find_spec hm maxCacheSize hs
  obtain ⟨res₀, cache₀, hfind₀, -, hzero₀, hsome₀, hnone₀⟩ := find_spec hm.uncached 0 hs
  obtain rfl := hzero₀ rfl rfl
  have hm' := hm.withCache hlive
  unfold AddrRangeMap.insert AddrRangeMap.intersects
  rw [hfind, hfind₀]
  cases res with
  | some n =>
    obtain ⟨hn, hcond⟩ := hsome n rfl
    cases res₀ with
    | none =>
      rw [hnone₀ rfl n hn] at hcond
      cases hcond
    | some n₀ => exact ⟨_, rfl, hm', rfl⟩
  | none =>
    cases res₀ with
    | some n₀ =>
      obtain ⟨hn, hcond⟩ := hsome₀ n₀ rfl
      rw [hnone rfl n₀ hn] at hcond
      cases hcond
    | none =>
      refine ⟨_, rfl, hm'.treeInsert hr hc (hnone rfl), ?_⟩
      show Except.ok (AddrRangeMap.treeInsert { m with cache := [] } r v) = _
      rw [treeInsert_withCache r v [], treeInsert_withCache r v cache]

/-- Removing nodes keeps the order. -/
theorem InOrder.filter (ht : InOrder tree) (keep : Node V → Bool) :
    InOrder (tree.filter keep) := by
  refine ⟨ht.follows.filter _, ?_⟩
  intro n hn
  exact ht.proper n (List.mem_filter.mp hn).1

theorem Linked.live_erase (hm : Linked m) (p : ℕ) :
    Live (m.tree.filter (·.id ≠ p)) (m.cache.filter (· ≠ p)) := by
  intro c hc
  obtain ⟨hc, hne⟩ := List.mem_filter.mp hc
  obtain ⟨n, hn, rfl⟩ := hm.live c hc
  exact ⟨n, List.mem_filter.mpr ⟨hn, hne⟩, rfl⟩

theorem mem_removeRounds {p c : ℕ} {erased : List (Node V)} (h : c ∈ removeRounds cache p erased) :
    c ∈ cache ∧ (erased ≠ [] → c ≠ p) := by
  induction erased generalizing cache with
  | nil => exact ⟨h, fun hcon => absurd rfl hcon⟩
  | cons n erased ih =>
    obtain ⟨hc, hne⟩ := List.mem_filter.mp (ih h).1
    exact ⟨hc, fun _ => of_decide_eq_true hne⟩

theorem removeRounds_nil (p : ℕ) (erased : List (Node V)) : removeRounds [] p erased = [] := by
  induction erased with
  | nil => rfl
  | cons n erased ih => exact ih

/-- The cache is live after a range `erase` that met no cached iterator but its first. -/
theorem Linked.live_eraseRange (hm : Linked m) {p : ℕ} {q : Option ℕ}
    (hcached : ∀ n ∈ segment m.tree p q, n.id ∈ m.cache → n.id = p) :
    Live (m.tree.filter fun n => !(segment m.tree p q).any (·.id = n.id))
      (removeRounds m.cache p (segment m.tree p q)) := by
  intro c hc
  obtain ⟨hc, hne⟩ := mem_removeRounds hc
  obtain ⟨x, hx, rfl⟩ := hm.live c hc
  refine ⟨x, List.mem_filter.mpr ⟨hx, ?_⟩, rfl⟩
  rw [Bool.not_eq_true', List.any_eq_false]
  intro y hy heq
  have hid : y.id = x.id := of_decide_eq_true heq
  have hp := hcached y hy (hid ▸ hc)
  exact hne (List.ne_nil_of_mem hy) (hid ▸ hp)

/-- What a range `erase` that returns has done, and that it depends on the cache in
nothing else. -/
theorem eraseRange_ok {p q : Option ℕ} (h : m.eraseRange p q = .ok m') :
    (p = none ∧ m' = m ∨ ∃ p', p = some p' ∧
      m' = { m with
        cache := removeRounds m.cache p' (segment m.tree p' q)
        tree := m.tree.filter fun n => !(segment m.tree p' q).any (·.id = n.id) }) ∧
      AddrRangeMap.eraseRange { m with cache := [] } p q = .ok { m' with cache := [] } := by
  cases p with
  | none =>
    obtain ⟨_, hq, h⟩ := bind_eq_ok.mp h
    obtain rfl := Except.ok.inj h
    refine ⟨.inl ⟨rfl, rfl⟩, ?_⟩
    unfold AddrRangeMap.eraseRange
    dsimp only
    rw [hq]
    rfl
  | some p =>
    unfold AddrRangeMap.eraseRange at h ⊢
    dsimp only at h ⊢
    obtain ⟨n, hn, h⟩ := bind_eq_ok.mp h
    rw [hn]
    cases q with
    | none =>
      obtain rfl := Except.ok.inj h
      refine ⟨.inr ⟨p, rfl, rfl⟩, ?_⟩
      show Except.ok (AddrRangeMap.mk _ (removeRounds [] p _) _) = _
      rw [removeRounds_nil]
    | some q =>
      obtain ⟨_, hq, h⟩ := bind_eq_ok.mp h
      obtain rfl := Except.ok.inj h
      refine ⟨.inr ⟨p, rfl, rfl⟩, ?_⟩
      show (orFail Fail.invalidIterator (nodeAt _ q) >>= _) = _
      rw [hq]
      show Except.ok (AddrRangeMap.mk _ (removeRounds [] p _) _) = _
      rw [removeRounds_nil]

theorem eraseRange_error {p q : Option ℕ} {e : Fail} (h : m.eraseRange p q = .error e) :
    AddrRangeMap.eraseRange { m with cache := [] } p q = .error e := by
  cases p with
  | none =>
    unfold AddrRangeMap.eraseRange at h ⊢
    dsimp only at h ⊢
    cases hq : require Fail.invalidIterator (decide (q = none)) with
    | ok _ =>
      rw [hq] at h
      cases h
    | error e' =>
      rw [hq] at h
      exact h
  | some p =>
    unfold AddrRangeMap.eraseRange at h ⊢
    dsimp only at h ⊢
    cases hn : nodeAt m.tree p with
    | none =>
      rw [hn] at h
      exact h
    | some n =>
      rw [hn] at h
      cases q with
      | none => cases h
      | some q =>
        cases hq : nodeAt (m.tree.dropWhile fun n => n.id ≠ p) q with
        | none =>
          dsimp only at h
          rw [hq] at h
          show (orFail Fail.invalidIterator (nodeAt _ q) >>= _) = _
          rw [hq]
          exact h
        | some _ =>
          dsimp only at h
          rw [hq] at h
          cases h

/-- A condition that always fails lets `find` return only on an empty map. -/
theorem find_of_error {e : Fail} (herr : ∀ x, cond x = .error e) (hm : Linked m) :
    m.find maxCacheSize r cond = if m.tree.isEmpty then .ok (none, m) else .error e := by
  cases hc : m.cache with
  | cons c cache =>
    obtain ⟨n, hn, rfl⟩ := hm.live c (by rw [hc]; exact List.mem_cons_self)
    have hne : m.tree.isEmpty = false :=
      List.isEmpty_eq_false_iff.mpr (List.ne_nil_of_mem hn)
    unfold AddrRangeMap.find
    rw [hc, findInCache, nodeAt_eq hm.ids hn, hne]
    show ((cond n.range >>= _) >>= _) = _
    rw [herr]
    rfl
  | nil =>
    unfold AddrRangeMap.find
    rw [hc]
    show (findInTree m.tree r cond >>= _) = _
    cases ht : m.tree with
    | nil => rfl
    | cons x tree =>
      have hfail : findInTree (x :: tree) r cond = .error e := by
        unfold findInTree
        cases hsuf : nodesAfter (x :: tree) r with
        | cons next suf =>
          show (cond next.range >>= _) = _
          rw [herr]
          rfl
        | nil =>
          cases hpre : (nodesUpTo (x :: tree) r).reverse with
          | nil =>
            have hnil := nodesUpTo_append (x :: tree) r
            rw [hsuf, List.reverse_eq_nil_iff.mp hpre] at hnil
            cases hnil
          | cons i rest =>
            show walkBack cond (i :: rest) = _
            unfold walkBack
            rw [herr]
            rfl
      rw [hfail]
      rfl

/-- What a lookup returns is in the tree, whatever the condition. -/
theorem mem_of_findInCache (h : findInCache tree cond cache = .ok (some n)) : n ∈ tree := by
  induction cache with
  | nil => cases h
  | cons c cache ih =>
    unfold findInCache at h
    obtain ⟨x, hx, h⟩ := bind_eq_ok.mp h
    obtain ⟨found, -, h⟩ := bind_eq_ok.mp h
    split at h
    · obtain rfl := Option.some.inj (Except.ok.inj h)
      exact List.mem_of_find?_eq_some (orFail_eq_ok.mp hx)
    · exact ih h

theorem mem_of_walkBack {l : List (Node V)} (h : walkBack cond l = .ok (some n)) : n ∈ l := by
  induction l with
  | nil => cases h
  | cons i rest ih =>
    unfold walkBack at h
    obtain ⟨found, -, h⟩ := bind_eq_ok.mp h
    split at h
    · obtain rfl := Option.some.inj (Except.ok.inj h)
      exact List.mem_cons_self
    · cases rest with
      | nil => cases h
      | cons next rest =>
        dsimp only at h
        split at h
        · exact List.mem_cons_of_mem i (ih h)
        · cases h

theorem mem_of_findInTree (h : findInTree tree r cond = .ok (some n)) : n ∈ tree := by
  have hback : walkBack cond (nodesUpTo tree r).reverse = .ok (some n) → n ∈ tree := by
    intro h
    exact (List.takeWhile_sublist _).subset (List.mem_reverse.mp (mem_of_walkBack h))
  unfold findInTree at h
  split at h
  · exact hback h
  · rename_i next suf hsuf
    obtain ⟨found, -, h⟩ := bind_eq_ok.mp h
    split at h
    · obtain rfl := Option.some.inj (Except.ok.inj h)
      apply (List.dropWhile_sublist _).subset
      show next ∈ nodesAfter tree r
      rw [hsuf]
      exact List.mem_cons_self
    · exact hback h

/-- A lookup that returns keeps the cache live. -/
theorem Linked.find (hm : Linked m) {x : Option (Node V) × AddrRangeMap V}
    (h : m.find maxCacheSize r cond = .ok x) :
    Linked x.2 := by
  obtain ⟨hit, hhit, h⟩ := bind_eq_ok.mp h
  cases hit with
  | some n =>
    obtain rfl := Except.ok.inj h
    refine ⟨hm.ids, hm.fresh, ?_⟩
    intro c hc
    rcases List.mem_cons.mp hc with rfl | hc
    · exact ⟨n, mem_of_findInCache hhit, rfl⟩
    · exact hm.live c (List.mem_of_mem_erase hc)
  | none =>
    obtain ⟨found, hfound, h⟩ := bind_eq_ok.mp h
    cases found with
    | none =>
      obtain rfl := Except.ok.inj h
      exact hm
    | some n =>
      obtain rfl := Except.ok.inj h
      exact ⟨hm.ids, hm.fresh,
        live_addNewEntry hm.live (mem_of_findInTree hfound) maxCacheSize⟩

/-- A lookup changes only the cache. -/
theorem find_tree {x : Option (Node V) × AddrRangeMap V} (h : m.find maxCacheSize r cond = .ok x) :
    x.2.tree = m.tree := by
  obtain ⟨hit, -, h⟩ := bind_eq_ok.mp h
  cases hit with
  | some n =>
    obtain rfl := Except.ok.inj h
    rfl
  | none =>
    obtain ⟨found, -, h⟩ := bind_eq_ok.mp h
    cases found with
    | none =>
      obtain rfl := Except.ok.inj h
      rfl
    | some n =>
      obtain rfl := Except.ok.inj h
      rfl

/-- A range `erase` meets no cached iterator but its first. -/
def CacheSafe (m : AddrRangeMap V) : MapAction V → Prop
  | .eraseRange p q =>
      ∀ p', p = some p' → ∀ n ∈ segment m.tree p' q, n.id ∈ m.cache → n.id = p'
  | _ => True

instance (m : AddrRangeMap V) : (a : MapAction V) → Decidable (CacheSafe m a)
  | .eraseRange none _ => .isTrue nofun
  | .eraseRange (some p) q =>
      decidable_of_iff (∀ n ∈ segment m.tree p q, n.id ∈ m.cache → n.id = p)
        ⟨fun h _ hp => Option.some.inj hp ▸ h, fun h => h p rfl⟩
  | .insert _ _ | .erase _ | .clear | .contains _ | .intersects _ => .isTrue trivial

/-- **One operation** on any ranges keeps the cache live. -/
theorem Linked.step (hm : Linked m) (ha : CacheSafe m a) (h : m.step maxCacheSize a = .ok m') :
    Linked m' := by
  cases a with
  | insert r v =>
    obtain ⟨x, hx, h⟩ := bind_eq_ok.mp h
    have hfound := hm.find hx
    obtain ⟨found, m₁⟩ := x
    cases found with
    | some n =>
      obtain rfl := Except.ok.inj h
      exact hfound
    | none =>
      obtain rfl := Except.ok.inj h
      exact hfound.treeInsert r v
  | erase p =>
    obtain ⟨n, -, h⟩ := bind_eq_ok.mp h
    obtain rfl := Except.ok.inj h
    exact hm.filter _ (hm.live_erase p)
  | eraseRange p q =>
    obtain ⟨⟨-, rfl⟩ | ⟨p', rfl, rfl⟩, -⟩ := eraseRange_ok h
    · exact hm
    · exact hm.filter _ (hm.live_eraseRange (ha p' rfl))
  | clear =>
    obtain rfl := Except.ok.inj h
    exact ⟨List.nodup_nil, nofun, nofun⟩
  | contains r =>
    obtain ⟨x, hx, h⟩ := bind_eq_ok.mp h
    obtain rfl := Except.ok.inj h
    exact hm.find hx
  | intersects r =>
    obtain ⟨x, hx, h⟩ := bind_eq_ok.mp h
    obtain rfl := Except.ok.inj h
    exact hm.find hx

/-- The ranges handed in are proper, and can be compared with the stored ones. -/
def RangesValid (m : AddrRangeMap V) : MapAction V → Prop
  | .insert r _ => Proper r ∧ ∀ n ∈ m.tree, Comparable r n.range
  | .intersects r => ∀ n ∈ m.tree, Comparable r n.range
  | _ => True

instance (m : AddrRangeMap V) : (a : MapAction V) → Decidable (RangesValid m a)
  | .insert r _ => inferInstanceAs (Decidable (Proper r ∧ ∀ n ∈ m.tree, Comparable r n.range))
  | .intersects r => inferInstanceAs (Decidable (∀ n ∈ m.tree, Comparable r n.range))
  | .erase _ | .eraseRange _ _ | .clear | .contains _ => .isTrue trivial

/-- The map without its cache. -/
def uncached (m : AddrRangeMap V) : AddrRangeMap V := { m with cache := [] }

/-- A query answers the same with and without the cache. -/
theorem contains_uncached (hm : MapInv m) (maxCacheSize : ℕ) (hr : r.start < r.end_) :
    (m.contains maxCacheSize r).map Prod.fst = ((uncached m).contains 0 r).map Prod.fst := by
  unfold AddrRangeMap.contains
  by_cases hmasks : r.masks = []
  · obtain ⟨res, cache, hfind, -, howner⟩ := contains_spec hm maxCacheSize hmasks hr
    obtain ⟨res₀, cache₀, hfind₀, -, howner₀⟩ := contains_spec hm.uncached 0 hmasks hr
    have heq : res = res₀ := Option.ext fun n => (howner n).trans (howner₀ n).symm
    unfold AddrRangeMap.contains at hfind hfind₀
    unfold uncached
    rw [hfind, hfind₀]
    exact congrArg Except.ok heq
  · have herr : ∀ x, r.isSubset x = .error .cannotTestSubset := isSubset_of_interleaved hmasks
    rw [find_of_error herr hm.toLinked, find_of_error (m := uncached m) herr hm.uncached.toLinked]
    show Except.map _ (if m.tree.isEmpty then _ else _) = Except.map _ (if m.tree.isEmpty then _ else _)
    split <;> rfl

/-- **One operation** does the same without the cache. -/
theorem step_uncached (hm : MapInv m) (ha : RangesValid m a) :
    (m.step maxCacheSize a).map uncached = (uncached m).step 0 a := by
  cases a with
  | insert r v =>
    obtain ⟨m', hm', -, hzero⟩ := insert_spec hm maxCacheSize v ha.1 ha.2
    show (m.insert maxCacheSize r v).map uncached = (uncached m).insert 0 r v
    rw [hm']
    exact hzero.symm
  | erase p =>
    show (orFail _ (nodeAt m.tree p) >>= _).map uncached = orFail _ (nodeAt m.tree p) >>= _
    cases nodeAt m.tree p <;> rfl
  | eraseRange p q =>
    show (m.eraseRange p q).map uncached = (uncached m).eraseRange p q
    cases h : m.eraseRange p q with
    | ok m' => exact (eraseRange_ok h).2.symm
    | error e => exact (eraseRange_error h).symm
  | clear => rfl
  | contains r =>
    show (m.contains maxCacheSize r >>= _).map uncached = (uncached m).contains 0 r >>= _
    unfold AddrRangeMap.contains
    by_cases hmasks : r.masks = []
    · have htotal : ∀ n ∈ m.tree, r.isSubset n.range = .ok true ∨
          r.isSubset n.range = .ok false := fun n hn =>
        isSubset_total hmasks (hm.inOrder.proper n hn)
      obtain ⟨res, cache, hfind, -⟩ := find_total hm maxCacheSize r htotal
      obtain ⟨res₀, cache₀, hfind₀, -, hzero₀, -⟩ := find_total hm.uncached 0 r htotal
      obtain rfl := hzero₀ rfl rfl
      unfold uncached
      rw [hfind, hfind₀]
      rfl
    · -- a query for an interleaved range panics on a map with entries
      have herr : ∀ x, r.isSubset x = .error .cannotTestSubset := isSubset_of_interleaved hmasks
      rw [find_of_error herr hm.toLinked, find_of_error (m := uncached m) herr hm.uncached.toLinked]
      show Except.map _ ((if m.tree.isEmpty then _ else _) >>= _) =
        (if m.tree.isEmpty then _ else _) >>= _
      split <;> rfl
  | intersects r =>
    show (m.intersects maxCacheSize r >>= _).map uncached = (uncached m).intersects 0 r >>= _
    have hs := searchable_intersects hm.inOrder ha
    obtain ⟨res, cache, hfind, -⟩ := find_spec hm maxCacheSize hs
    obtain ⟨res₀, cache₀, hfind₀, -, hzero₀, -⟩ := find_spec hm.uncached 0 hs
    obtain rfl := hzero₀ rfl rfl
    unfold AddrRangeMap.intersects uncached
    rw [hfind, hfind₀]
    rfl

/-- **One operation** keeps the ranges in order. -/
theorem MapInv.step (hm : MapInv m) (hsafe : CacheSafe m a) (ha : RangesValid m a)
    (h : m.step maxCacheSize a = .ok m') :
    MapInv m' := by
  refine ⟨hm.toLinked.step hsafe h, ?_⟩
  cases a with
  | insert r v =>
    obtain ⟨m'', hm'', hinv, -⟩ := insert_spec hm maxCacheSize v ha.1 ha.2
    obtain rfl := Except.ok.inj (h.symm.trans hm'')
    exact hinv.inOrder
  | erase p =>
    obtain ⟨n, -, h⟩ := bind_eq_ok.mp h
    obtain rfl := Except.ok.inj h
    exact hm.inOrder.filter _
  | eraseRange p q =>
    obtain ⟨⟨-, rfl⟩ | ⟨p', rfl, rfl⟩, -⟩ := eraseRange_ok h
    · exact hm.inOrder
    · exact hm.inOrder.filter _
  | clear =>
    obtain rfl := Except.ok.inj h
    exact ⟨List.Pairwise.nil, nofun⟩
  | contains r =>
    obtain ⟨x, hx, h⟩ := bind_eq_ok.mp h
    obtain rfl := Except.ok.inj h
    rw [find_tree hx]
    exact hm.inOrder
  | intersects r =>
    obtain ⟨x, hx, h⟩ := bind_eq_ok.mp h
    obtain rfl := Except.ok.inj h
    rw [find_tree hx]
    exact hm.inOrder

end Operations

/-! ## Whole runs -/

theorem mapInv_empty : MapInv (AddrRangeMap.empty : AddrRangeMap V) :=
  ⟨⟨List.nodup_nil, nofun, nofun⟩, List.Pairwise.nil, nofun⟩

/-- The condition on the calls of a run. -/
def WellUsed (m : AddrRangeMap V) (a : MapAction V) : Prop := CacheSafe m a ∧ RangesValid m a

instance (m : AddrRangeMap V) (a : MapAction V) : Decidable (WellUsed m a) :=
  inferInstanceAs (Decidable (CacheSafe m a ∧ RangesValid m a))

theorem mapInv_run {maxCacheSize : ℕ} {as : List (MapAction V)}
    (ha : Admitted WellUsed (AddrRangeMap.step maxCacheSize) .empty as)
    (h : run (AddrRangeMap.step maxCacheSize) .empty as = .ok m) : MapInv m :=
  run_invariant (fun _ _ _ hm ha h => hm.step ha.1 ha.2 h) mapInv_empty ha h

/-- **The cache is transparent.**  After any operations whose range `erase`s met no cached
iterator but their first, every cached iterator is live.  If the ranges handed in were also
valid, the map without a cache went through the same operations with the same result, and
every query for a range that is not empty gets the same answer from both. -/
theorem cache_transparent (maxCacheSize : ℕ) (as : List (MapAction V))
    (hsafe : Admitted CacheSafe (AddrRangeMap.step maxCacheSize) .empty as) :
    (∀ m, run (AddrRangeMap.step maxCacheSize) .empty as = .ok m → Live m.tree m.cache) ∧
      (Admitted RangesValid (AddrRangeMap.step maxCacheSize) .empty as →
        (run (AddrRangeMap.step maxCacheSize) .empty as).map uncached =
            run (AddrRangeMap.step 0) .empty as ∧
          ∀ m, run (AddrRangeMap.step maxCacheSize) .empty as = .ok m →
            ∀ r : AddrRange, r.start < r.end_ →
              (m.contains maxCacheSize r).map Prod.fst =
                ((uncached m).contains 0 r).map Prod.fst) := by
  refine ⟨?_, ?_⟩
  · intro m h
    have hlinked : Linked m :=
      run_invariant (fun _ _ _ hm ha h => hm.step ha h) mapInv_empty.toLinked hsafe h
    exact hlinked.live
  · intro hranges
    have hvalid : Admitted WellUsed (AddrRangeMap.step maxCacheSize) .empty as :=
      hsafe.and hranges
    refine ⟨?_, ?_⟩
    · exact run_map (fun _ _ _ hm ha h => hm.step ha.1 ha.2 h)
        (fun _ _ hm ha => step_uncached hm ha.2) mapInv_empty hvalid
    · intro m h r hr
      exact contains_uncached (mapInv_run hvalid h) maxCacheSize hr

/-- Two channels behind a plain range, a query that is cached, and the entries erased from
the first on while only the first is cached. -/
def eraseFromCached : List (MapAction Unit) :=
  [.insert (AddrRange.plain 0 10) (), .insert ⟨16, 32, [8], 0⟩ (), .insert ⟨16, 32, [8], 1⟩ (),
    .contains (rangeSize 17 1), .eraseRange (some 1) none, .contains (rangeSize 5 1)]

theorem cache_transparent_channels :
    Admitted CacheSafe (AddrRangeMap.step 1) .empty eraseFromCached ∧
      Admitted RangesValid (AddrRangeMap.step 1) .empty eraseFromCached ∧
      (run (AddrRangeMap.step 1) .empty eraseFromCached).map uncached =
        run (AddrRangeMap.step 0) .empty eraseFromCached := by
  have hsafe : Admitted CacheSafe (AddrRangeMap.step 1) .empty eraseFromCached := by
    decide +kernel
  have hranges : Admitted RangesValid (AddrRangeMap.step 1) .empty eraseFromCached := by
    decide +kernel
  exact ⟨hsafe, hranges, ((cache_transparent 1 eraseFromCached hsafe).2 hranges).1⟩

/-- `erase(begin(), end())` while the second of two entries is cached. -/
def eraseBehindCached : List (MapAction Unit) :=
  [.insert (AddrRange.plain 0 10) (), .insert (AddrRange.plain 10 20) (),
    .contains (rangeSize 15 1), .eraseRange (some 0) none]

/-- The range `erase` leaves the second entry in the cache: the next query reads through the
iterator of an erased node, where the map without a cache answers `end()`. -/
theorem erased_entry_stays_cached :
    ∃ m : AddrRangeMap Unit, run (AddrRangeMap.step 1) .empty eraseBehindCached = .ok m ∧
      run (AddrRangeMap.step 0) .empty eraseBehindCached = .ok (uncached m) ∧
      ¬Live m.tree m.cache ∧
      m.containsAddr 1 15 = .error .danglingIterator ∧
      ((uncached m).containsAddr 0 15).map Prod.fst = .ok none := by
  refine ⟨⟨[], [1], 2⟩, rfl, rfl, ?_, rfl, rfl⟩
  intro hlive
  obtain ⟨n, hn, -⟩ := hlive 1 List.mem_cons_self
  cases hn

/-- **A lookup finds the owner.**  After any valid operations no address lies in two stored
ranges, and `contains(a)` returns the entry whose range contains `a`, or `end()` when there
is none, for every address but the last one. -/
theorem lookup_owner (maxCacheSize : ℕ) (as : List (MapAction V)) (m : AddrRangeMap V)
    (hvalid : Admitted WellUsed (AddrRangeMap.step maxCacheSize) .empty as)
    (hrun : run (AddrRangeMap.step maxCacheSize) .empty as = .ok m) :
    (∀ n ∈ m.tree, ∀ n' ∈ m.tree, ∀ a, n.range.contains a = .ok true →
        n'.range.contains a = .ok true → n = n') ∧
      ∀ a : Addr, a ≠ BitVec.allOnes 64 →
        ∃ res m', m.containsAddr maxCacheSize a = .ok (res, m') ∧
          (∀ n, res = some n ↔ n ∈ m.tree ∧ n.range.contains a = .ok true) := by
  have hm := mapInv_run hvalid hrun
  refine ⟨fun n hn n' hn' a => hm.inOrder.owner_unique hn hn', ?_⟩
  intro a ha
  obtain ⟨res, cache, hfind, -, howner⟩ :=
    contains_spec hm maxCacheSize (show (rangeSize a 1).masks = [] from rfl)
      (rangeSize_one_nonempty ha)
  refine ⟨res, _, hfind, fun n => (howner n).trans (and_congr_right fun hn => ?_)⟩
  exact isSubset_iff_contains ha (hm.inOrder.proper n hn)

/-- Two plain ranges, the first of which is erased, and two channels. -/
def channelsAndPlain : List (MapAction Unit) :=
  [.insert (AddrRange.plain 0 10) (), .insert ⟨16, 32, [8], 1⟩ (), .insert ⟨16, 32, [8], 0⟩ (),
    .insert (AddrRange.plain 10 16) (), .erase 0]

theorem lookup_owner_channels :
    ∃ m, Admitted WellUsed (AddrRangeMap.step 3) .empty channelsAndPlain ∧
      run (AddrRangeMap.step 3) .empty channelsAndPlain = .ok m ∧ m.tree.length = 3 ∧
      ∃ res m', m.containsAddr 3 25 = .ok (res, m') ∧
        ∀ n, res = some n ↔ n ∈ m.tree ∧ n.range.contains 25 = .ok true := by
  have hvalid : Admitted WellUsed (AddrRangeMap.step 3) .empty channelsAndPlain := by
    decide +kernel
  refine ⟨⟨[⟨3, AddrRange.plain 10 16, ()⟩, ⟨2, ⟨16, 32, [8], 0⟩, ()⟩,
    ⟨1, ⟨16, 32, [8], 1⟩, ()⟩], [], 4⟩, hvalid, rfl, rfl, ?_⟩
  exact (lookup_owner 3 channelsAndPlain _ hvalid rfl).2 25 (by decide)

/-- A single address inside the interval of an interleaved range that does not contain it. -/
def addressInGap : List (MapAction Unit) :=
  [.insert (AddrRange.plain 5 6) (), .insert ⟨0, 100, [16], 1⟩ ()]

/-- An empty range at the start of two channels. -/
def emptyAtStart : List (MapAction Unit) :=
  [.insert (AddrRange.plain 0 0) (), .insert ⟨0, 100, [16], 0⟩ (), .insert ⟨0, 100, [16], 1⟩ ()]

/-- The search stops at a range that lies inside the interval of an interleaved one, and at
an empty range; and the single address `2^64 - 1` is a range that wraps around and lies in
every entry. -/
theorem lookup_misses_owner :
    (∃ m n, run (AddrRangeMap.step 0) .empty addressInGap = .ok m ∧ n ∈ m.tree ∧
        n.range.contains 50 = .ok true ∧ m.containsAddr 0 50 = .ok (none, m)) ∧
      (∃ m n, run (AddrRangeMap.step 0) .empty emptyAtStart = .ok m ∧ n ∈ m.tree ∧
        n.range.contains 50 = .ok true ∧ m.containsAddr 0 50 = .ok (none, m)) ∧
      ∃ m n, run (AddrRangeMap.step 0) (AddrRangeMap.empty : AddrRangeMap Unit)
          [.insert (AddrRange.plain 0 10) ()] = .ok m ∧
        n.range.contains (BitVec.allOnes 64) = .ok false ∧
        m.containsAddr 0 (BitVec.allOnes 64) = .ok (some n, m) := by
  refine ⟨⟨⟨[⟨1, ⟨0, 100, [16], 1⟩, ()⟩, ⟨0, AddrRange.plain 5 6, ()⟩], [], 2⟩,
      ⟨1, ⟨0, 100, [16], 1⟩, ()⟩, rfl, List.mem_cons_self, rfl, rfl⟩,
    ⟨⟨[⟨1, ⟨0, 100, [16], 0⟩, ()⟩, ⟨2, ⟨0, 100, [16], 1⟩, ()⟩, ⟨0, AddrRange.plain 0 0, ()⟩],
      [], 3⟩, ⟨2, ⟨0, 100, [16], 1⟩, ()⟩, rfl, ?_, rfl, rfl⟩,
    ⟨⟨[⟨0, AddrRange.plain 0 10, ()⟩], [], 1⟩, ⟨0, AddrRange.plain 0 10, ()⟩, rfl, rfl, rfl⟩⟩
  exact List.mem_cons_of_mem _ List.mem_cons_self

end Gem5.Base
