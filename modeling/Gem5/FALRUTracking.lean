/-
# The tracked caches of the fully associative tags

What the moves of `Gem5.FALRU` keep: the blocks stay on one doubly linked list, the `i`-th boundary
is the last block of the `i`-th tracked cache, and a block has bit `i` in its mask exactly when its
position is within that cache.  This holds in every run if the smallest tracked cache has at least
two blocks.  With one block the first move to the head takes the boundary of that cache to the null
pointer before the head.
-/
import Gem5.FALRU

namespace Gem5.Mem

open Runs

namespace FALRU

/-! ## Tracking and links apart -/

/-- The state with other masks and boundaries. -/
def withTracking (s : FALRU) (mask : ℕ → CachesMask) (boundaries : ℕ → Option ℕ) : FALRU :=
  { s with
    blks := fun b => { s.blks b with inCachesMask := mask b }
    boundaries := boundaries }

/-- The state with other links. -/
def withLinks (s : FALRU) (next prev : ℕ → Option ℕ) (head tail : Option ℕ) : FALRU :=
  { s with
    blks := fun b => { s.blks b with next := next b, prev := prev b }
    head := head
    tail := tail }

/-- The masks of the blocks. -/
def masks (s : FALRU) : ℕ → CachesMask := fun b => (s.blks b).inCachesMask

/-- The links of the blocks. -/
def nexts (s : FALRU) : ℕ → Option ℕ := fun b => (s.blks b).next

def prevs (s : FALRU) : ℕ → Option ℕ := fun b => (s.blks b).prev

theorem withTracking_setMask (s : FALRU) (mask : ℕ → CachesMask) (boundaries : ℕ → Option ℕ)
    (b : ℕ) (v : CachesMask) : (s.withTracking mask boundaries).setMask b v =
      s.withTracking (Function.update mask b v) boundaries := by
  unfold setMask setBlk withTracking
  congr 1
  funext c
  by_cases hc : c = b
  · subst hc
    simp
  · simp [hc]

theorem withTracking_setBoundary (s : FALRU) (mask : ℕ → CachesMask) (boundaries : ℕ → Option ℕ)
    (i : ℕ) (b : Option ℕ) : (s.withTracking mask boundaries).setBoundary i b =
      s.withTracking mask (Function.update boundaries i b) := rfl

theorem withLinks_setNext (s : FALRU) (next prev : ℕ → Option ℕ) (head tail : Option ℕ) (b : ℕ)
    (v : Option ℕ) : (s.withLinks next prev head tail).setNext b v =
      s.withLinks (Function.update next b v) prev head tail := by
  unfold setNext setBlk withLinks
  congr 1
  funext c
  by_cases hc : c = b
  · subst hc
    simp
  · simp [hc]

theorem withLinks_setPrev (s : FALRU) (next prev : ℕ → Option ℕ) (head tail : Option ℕ) (b : ℕ)
    (v : Option ℕ) : (s.withLinks next prev head tail).setPrev b v =
      s.withLinks next (Function.update prev b v) head tail := by
  unfold setPrev setBlk withLinks
  congr 1
  funext c
  by_cases hc : c = b
  · subst hc
    simp
  · simp [hc]

/-! ## The tracking -/

/-- The sizes of the tracked caches in blocks: the smallest holds `n`, and each of the `caches` is
smaller than the list. -/
structure Sized (n caches length : ℕ) : Prop where
  pos : 0 < n
  le : caches ≤ 32
  lt : ∀ i, i < caches → n * 2 ^ i < length

/-- The masks of a list of blocks. -/
def Masked (n caches : ℕ) (l : List ℕ) (mask : ℕ → CachesMask) : Prop :=
  ∀ p b, l[p]? = some b → ∀ i, (mask b).getLsbD i = true ↔ i < caches ∧ p < n * 2 ^ i

/-- The boundaries and masks of a list of blocks. -/
structure Tracked (n caches : ℕ) (l : List ℕ) (mask : ℕ → CachesMask)
    (boundaries : ℕ → Option ℕ) : Prop where
  boundary : ∀ i, i < caches → boundaries i = l[n * 2 ^ i - 1]?
  mask : Masked n caches l mask

theorem Sized.pos_pow {n caches length : ℕ} (h : Sized n caches length) (i : ℕ) : 0 < n * 2 ^ i :=
  Nat.mul_pos h.pos (Nat.two_pow_pos i)

theorem getLsbD_inAllCachesMask {s : FALRU} (h : s.numTrackedCaches ≤ 32) (i : ℕ) :
    s.inAllCachesMask.getLsbD i = true ↔ i < s.numTrackedCaches := by
  unfold inAllCachesMask
  rw [BitVec.getLsbD_ofNat, Nat.testBit_two_pow_sub_one]
  simp only [Bool.and_eq_true, decide_eq_true_eq]
  omega

/-- What `moveBlockToHead` makes of a boundary when the block at position `k` becomes the first one:
the boundary of a cache of one block is lost. -/
def headBoundary (n : ℕ) (l : List ℕ) (k x j : ℕ) : Option ℕ :=
  if n * 2 ^ j = 1 then none else (x :: l.eraseIdx k)[n * 2 ^ j - 1]?

/-- Caches below `i` of the loop of `moveBlockToHead` for the block at position `k` are done. -/
structure HeadLoop (n caches : ℕ) (l : List ℕ) (k x i : ℕ) (mask : ℕ → CachesMask)
    (boundaries : ℕ → Option ℕ) : Prop where
  boundary : ∀ j, j < caches → boundaries j =
    if j < i then headBoundary n l k x j else l[n * 2 ^ j - 1]?
  mask : ∀ p b, l[p]? = some b → ∀ j, (mask b).getLsbD j = true ↔
    j < caches ∧ (if j < i ∧ p < k then p + 1 else p) < n * 2 ^ j

/-- Caches below `i` of the loop of `moveBlockToTail` for the block at position `k` are done. -/
structure TailLoop (n caches : ℕ) (l : List ℕ) (k x i : ℕ) (mask : ℕ → CachesMask)
    (boundaries : ℕ → Option ℕ) : Prop where
  boundary : ∀ j, j < caches → boundaries j =
    if j < i then (l.eraseIdx k ++ [x])[n * 2 ^ j - 1]? else l[n * 2 ^ j - 1]?
  mask : ∀ p b, l[p]? = some b → ∀ j, (mask b).getLsbD j = true ↔
    j < caches ∧ (if j < i ∧ k < p then p - 1 else p) < n * 2 ^ j

section Loops

variable {s : FALRU} {n k x : ℕ} {l : List ℕ}

/-- The links of the state are those of the list `l`. -/
abbrev Links (s : FALRU) (l : List ℕ) : Prop := DoublyLinked s.nexts s.prevs s.head s.tail l

/-- One cache of the loop of `moveBlockToHead`. -/
theorem toHeadStep_spec (hl : s.Links l) (hsized : Sized n s.numTrackedCaches l.length)
    (hx : l[k]? = some x) (hk : 0 < k) {update : CachesMask} {i : ℕ}
    (hi : i < s.numTrackedCaches) (hupdate : update.getLsbD i = true ↔ ¬ k < n * 2 ^ i)
    {mask : ℕ → CachesMask} {boundaries : ℕ → Option ℕ}
    (h : HeadLoop n s.numTrackedCaches l k x i mask boundaries) :
    ∃ mask' boundaries', (s.withTracking mask boundaries).toHeadStep x update i =
        .ok (s.withTracking mask' boundaries') ∧
      HeadLoop n s.numTrackedCaches l k x (i + 1) mask' boundaries' := by
  have hi32 : i < 32 := lt_of_lt_of_le hi hsized.le
  have hlt := hsized.lt i hi
  have hbound := h.boundary i hi
  rw [if_neg (lt_irrefl i)] at hbound
  have hpow := hsized.pos_pow i
  have hlt_succ : ∀ j, j ≠ i → (j < i + 1 ↔ j < i) := by
    intro j hj
    omega
  unfold toHeadStep
  by_cases hcase : k < n * 2 ^ i
  · -- the block is in the cache: the boundary moves only off the block itself
    rw [if_neg fun hne => (hupdate.mp ((Base.and_bit_ne_zero hi32).mp hne)) hcase]
    have hmask : ∀ p b, l[p]? = some b → ∀ j, (mask b).getLsbD j = true ↔
        j < s.numTrackedCaches ∧ (if j < i + 1 ∧ p < k then p + 1 else p) < n * 2 ^ j := by
      intro p b hp j
      rw [h.mask p b hp j]
      by_cases hj : j = i
      · subst hj
        split_ifs <;> omega
      · simp only [hlt_succ j hj]
    by_cases hb : boundaries i = some x
    · have hki : k = n * 2 ^ i - 1 := hl.index_inj hx (hbound.symm.trans hb)
      refine ⟨mask, Function.update boundaries i (s.prevs x), ?_, ?_, hmask⟩
      · exact if_pos hb
      · intro j hj
        by_cases hji : j = i
        · subst hji
          rw [Function.update_self, if_pos (Nat.lt_succ_self j), headBoundary, if_neg (by omega),
            DoublyLinked.getElem?_toFront, if_neg (by omega), if_pos (by omega),
            hl.prev_pos hx hk, hki]
        · rw [Function.update_of_ne hji, h.boundary j hj]
          simp only [hlt_succ j hji]
    · refine ⟨mask, boundaries, if_neg hb, ?_, hmask⟩
      intro j hj
      by_cases hji : j = i
      · subst hji
        have hne : k ≠ n * 2 ^ j - 1 := by
          rintro rfl
          exact hb (hbound.trans hx)
        rw [if_pos (Nat.lt_succ_self j), headBoundary, if_neg (by omega),
          DoublyLinked.getElem?_toFront, if_neg (by omega), if_neg (by omega), hbound]
      · rw [h.boundary j hj]
        simp only [hlt_succ j hji]
  · -- the block comes in: the boundary moves one block towards the head
    rw [if_pos ((Base.and_bit_ne_zero hi32).mpr (hupdate.mpr hcase))]
    obtain ⟨c, hc⟩ : ∃ c, l[n * 2 ^ i - 1]? = some c :=
      ⟨_, List.getElem?_eq_getElem (by omega)⟩
    refine ⟨Function.update mask c (mask c &&& ~~~(1#32 <<< i)),
      Function.update boundaries i (s.prevs c), ?_, ?_, ?_⟩
    · refine bind_eq_ok.mpr ⟨c, orFail_eq_ok.mpr (hbound.trans hc), ?_⟩
      rw [withTracking_setMask]
      rfl
    · intro j hj
      by_cases hji : j = i
      · subst hji
        rw [Function.update_self, if_pos (Nat.lt_succ_self j), headBoundary]
        by_cases hone : n * 2 ^ j = 1
        · -- nothing is before the only block of the cache
          rw [if_pos hone, hl.prev _ c hc, if_pos (by omega)]
        · rw [if_neg hone, DoublyLinked.getElem?_toFront, if_neg (by omega), if_pos (by omega),
            hl.prev_pos hc (by omega)]
      · rw [Function.update_of_ne hji, h.boundary j hj]
        simp only [hlt_succ j hji]
    · intro p b hp j
      by_cases hbc : b = c
      · subst hbc
        have hpi : p = n * 2 ^ i - 1 := hl.index_inj hp hc
        rw [Function.update_self, Base.getLsbD_clearBit hi32]
        by_cases hji : j = i
        · subst hji
          simp only [ne_eq, not_true_eq_false, decide_false, Bool.and_false, Bool.false_eq_true,
            false_iff]
          rw [if_pos ⟨Nat.lt_succ_self j, by omega⟩]
          omega
        · simp only [ne_eq, hji, not_false_eq_true, decide_true, Bool.and_true]
          rw [h.mask p b hp j]
          simp only [hlt_succ j hji]
      · have hpi : p ≠ n * 2 ^ i - 1 := by
          rintro rfl
          exact hbc (Option.some.inj (hp.symm.trans hc))
        rw [Function.update_of_ne hbc, h.mask p b hp j]
        by_cases hji : j = i
        · subst hji
          split_ifs <;> omega
        · simp only [hlt_succ j hji]

/-- One cache of the loop of `moveBlockToTail`. -/
theorem toTailStep_spec (hl : s.Links l) (hsized : Sized n s.numTrackedCaches l.length)
    (hx : l[k]? = some x) {update : CachesMask} {i : ℕ}
    (hi : i < s.numTrackedCaches) (hupdate : update.getLsbD i = true ↔ k < n * 2 ^ i)
    {mask : ℕ → CachesMask} {boundaries : ℕ → Option ℕ}
    (h : TailLoop n s.numTrackedCaches l k x i mask boundaries) :
    ∃ mask' boundaries', (s.withTracking mask boundaries).toTailStep x update i =
        .ok (s.withTracking mask' boundaries') ∧
      TailLoop n s.numTrackedCaches l k x (i + 1) mask' boundaries' := by
  have hi32 : i < 32 := lt_of_lt_of_le hi hsized.le
  have hlt := hsized.lt i hi
  have hpow := hsized.pos_pow i
  have hbound := h.boundary i hi
  rw [if_neg (lt_irrefl i)] at hbound
  have hlt_succ : ∀ j, j ≠ i → (j < i + 1 ↔ j < i) := by
    intro j hj
    omega
  unfold toTailStep
  by_cases hcase : k < n * 2 ^ i
  · -- the block goes out: the boundary moves one block towards the tail
    rw [if_pos ((Base.and_bit_ne_zero hi32).mpr (hupdate.mpr hcase))]
    obtain ⟨c, hc⟩ : ∃ c, l[n * 2 ^ i - 1]? = some c :=
      ⟨_, List.getElem?_eq_getElem (by omega)⟩
    obtain ⟨d, hd⟩ : ∃ d, l[n * 2 ^ i]? = some d := ⟨_, List.getElem?_eq_getElem hlt⟩
    have hnext : s.nexts c = some d := by
      rw [hl.next _ c hc, Nat.sub_add_cancel hpow, hd]
    have hdx : ¬ some d = some x := by
      intro heq
      obtain rfl := Option.some.inj heq
      have := hl.index_inj hd hx
      omega
    refine ⟨Function.update mask d (mask d ||| 1#32 <<< i),
      Function.update boundaries i (some d), ?_, ?_, ?_⟩
    · refine bind_eq_ok.mpr ⟨c, orFail_eq_ok.mpr (hbound.trans hc), ?_⟩
      have hplace : (if s.nexts c = some x then s.nexts x else s.nexts c) = some d := by
        rw [hnext, if_neg hdx]
      refine bind_eq_ok.mpr ⟨d, orFail_eq_ok.mpr hplace, ?_⟩
      rw [withTracking_setBoundary, withTracking_setMask]
      rfl
    · intro j hj
      by_cases hji : j = i
      · subst hji
        rw [Function.update_self, if_pos (Nat.lt_succ_self j), DoublyLinked.getElem?_toBack hx,
          if_neg (by omega), if_pos (by omega), Nat.sub_add_cancel hpow, hd]
      · rw [Function.update_of_ne hji, h.boundary j hj]
        simp only [hlt_succ j hji]
    · intro p b hp j
      by_cases hbd : b = d
      · subst hbd
        have hpi : p = n * 2 ^ i := hl.index_inj hp hd
        rw [Function.update_self, Base.getLsbD_setBit hi32]
        by_cases hji : j = i
        · subst hji
          simp only [decide_true, Bool.or_true, true_iff]
          rw [if_pos ⟨Nat.lt_succ_self j, by omega⟩]
          omega
        · simp only [hji, decide_false, Bool.or_false]
          rw [h.mask p b hp j]
          simp only [hlt_succ j hji]
      · have hpi : p ≠ n * 2 ^ i := by
          rintro rfl
          exact hbd (Option.some.inj (hp.symm.trans hd))
        rw [Function.update_of_ne hbd, h.mask p b hp j]
        by_cases hji : j = i
        · subst hji
          split_ifs <;> omega
        · simp only [hlt_succ j hji]
  · -- the block was not in the cache
    rw [if_neg fun hne => hcase (hupdate.mp ((Base.and_bit_ne_zero hi32).mp hne))]
    refine ⟨mask, boundaries, rfl, ?_, ?_⟩
    · intro j hj
      by_cases hji : j = i
      · subst hji
        rw [if_pos (Nat.lt_succ_self j), DoublyLinked.getElem?_toBack hx, if_pos (by omega), hbound]
      · rw [h.boundary j hj]
        simp only [hlt_succ j hji]
    · intro p b hp j
      rw [h.mask p b hp j]
      by_cases hji : j = i
      · subst hji
        split_ifs <;> omega
      · simp only [hlt_succ j hji]

/-- `moveBlockToHead` brings the tracking to what it is when the block is at the front, except for
the boundary of a cache of one block. -/
theorem moveBlockToHead_spec (hl : s.Links l) (hsized : Sized n s.numTrackedCaches l.length)
    (ht : Tracked n s.numTrackedCaches l s.masks s.boundaries) (hx : l[k]? = some x) (hk : 0 < k) :
    ∃ mask boundaries, s.moveBlockToHead x = .ok (s.withTracking mask boundaries) ∧
      (∀ j, j < s.numTrackedCaches → boundaries j = headBoundary n l k x j) ∧
      Masked n s.numTrackedCaches (x :: l.eraseIdx k) mask := by
  have hupdate : ∀ i, i < s.numTrackedCaches →
      ((s.inAllCachesMask ^^^ (s.blks x).inCachesMask).getLsbD i = true ↔ ¬ k < n * 2 ^ i) := by
    intro i hi
    have hin := (getLsbD_inAllCachesMask hsized.le i).mpr hi
    have hblk := ht.mask k x hx i
    rw [BitVec.getLsbD_xor, hin, Bool.true_xor, Bool.not_eq_true', ← Bool.not_eq_true]
    exact not_congr (hblk.trans (and_iff_right hi))
  obtain ⟨t, hfold, mask, boundaries, rfl, hloop⟩ := foldlM_range
    (P := fun i t => ∃ mask boundaries, t = s.withTracking mask boundaries ∧
      HeadLoop n s.numTrackedCaches l k x i mask boundaries)
    (f := fun t i => toHeadStep t x (s.inAllCachesMask ^^^ (s.blks x).inCachesMask) i)
    (n := s.numTrackedCaches) (s := s)
    ⟨s.masks, s.boundaries, rfl, fun j hj => by rw [if_neg (Nat.not_lt_zero j), ht.boundary j hj],
      fun p b hp j => by rw [if_neg fun h => Nat.not_lt_zero j h.1]; exact ht.mask p b hp j⟩
    (by
      rintro i hi t ⟨mask, boundaries, rfl, hloop⟩
      obtain ⟨mask', boundaries', hstep, hloop'⟩ :=
        toHeadStep_spec hl hsized hx hk hi (hupdate i hi) hloop
      exact ⟨_, hstep, mask', boundaries', rfl, hloop'⟩)
  refine ⟨Function.update mask x s.inAllCachesMask, boundaries, ?_, ?_, ?_⟩
  · refine bind_eq_ok.mpr ⟨_, hfold, ?_⟩
    rw [withTracking_setMask]
    rfl
  · intro j hj
    rw [hloop.boundary j hj, if_pos hj]
  · intro p b hp j
    rw [DoublyLinked.getElem?_toFront] at hp
    by_cases hp0 : p = 0
    · rw [if_pos hp0] at hp
      obtain rfl := Option.some.inj hp
      rw [Function.update_self, getLsbD_inAllCachesMask hsized.le, hp0]
      exact (and_iff_left (hsized.pos_pow j)).symm
    rw [if_neg hp0] at hp
    by_cases hpk : p ≤ k
    · rw [if_pos hpk] at hp
      rw [Function.update_of_ne (hl.ne_of_index hp hx (by omega)), hloop.mask _ b hp j]
      split_ifs <;> omega
    · rw [if_neg hpk] at hp
      rw [Function.update_of_ne (hl.ne_of_index hp hx (by omega)), hloop.mask _ b hp j]
      split_ifs <;> omega

/-- `moveBlockToTail` brings the tracking to what it is when the block is at the back. -/
theorem moveBlockToTail_spec (hl : s.Links l) (hsized : Sized n s.numTrackedCaches l.length)
    (ht : Tracked n s.numTrackedCaches l s.masks s.boundaries) (hx : l[k]? = some x) :
    ∃ mask boundaries, s.moveBlockToTail x = .ok (s.withTracking mask boundaries) ∧
      Tracked n s.numTrackedCaches (l.eraseIdx k ++ [x]) mask boundaries := by
  have hupdate : ∀ i, i < s.numTrackedCaches →
      ((s.blks x).inCachesMask.getLsbD i = true ↔ k < n * 2 ^ i) := by
    intro i hi
    exact (ht.mask k x hx i).trans (and_iff_right hi)
  obtain ⟨t, hfold, mask, boundaries, rfl, hloop⟩ := foldlM_range
    (P := fun i t => ∃ mask boundaries, t = s.withTracking mask boundaries ∧
      TailLoop n s.numTrackedCaches l k x i mask boundaries)
    (f := fun t i => toTailStep t x (s.blks x).inCachesMask i)
    (n := s.numTrackedCaches) (s := s)
    ⟨s.masks, s.boundaries, rfl, fun j hj => by rw [if_neg (Nat.not_lt_zero j), ht.boundary j hj],
      fun p b hp j => by rw [if_neg fun h => Nat.not_lt_zero j h.1]; exact ht.mask p b hp j⟩
    (by
      rintro i hi t ⟨mask, boundaries, rfl, hloop⟩
      obtain ⟨mask', boundaries', hstep, hloop'⟩ :=
        toTailStep_spec hl hsized hx hi (hupdate i hi) hloop
      exact ⟨_, hstep, mask', boundaries', rfl, hloop'⟩)
  refine ⟨Function.update mask x 0#32, boundaries, ?_, ?_, ?_⟩
  · refine bind_eq_ok.mpr ⟨_, hfold, ?_⟩
    rw [withTracking_setMask]
    rfl
  · intro j hj
    rw [hloop.boundary j hj, if_pos hj]
  · intro p b hp j
    rw [DoublyLinked.getElem?_toBack hx] at hp
    by_cases hpk : p < k
    · rw [if_pos hpk] at hp
      rw [Function.update_of_ne (hl.ne_of_index hp hx (by omega)), hloop.mask _ b hp j]
      split_ifs <;> omega
    rw [if_neg hpk] at hp
    by_cases hp1 : p + 1 < l.length
    · rw [if_pos hp1] at hp
      rw [Function.update_of_ne (hl.ne_of_index hp hx (by omega)), hloop.mask _ b hp j]
      split_ifs <;> omega
    rw [if_neg hp1] at hp
    by_cases hlast : p + 1 = l.length
    · rw [if_pos hlast] at hp
      obtain rfl := Option.some.inj hp
      rw [Function.update_self]
      -- the last block is in no tracked cache
      simp only [BitVec.getLsbD_zero, Bool.false_eq_true, false_iff, not_and]
      intro hj
      have := hsized.lt j hj
      omega
    · rw [if_neg hlast] at hp
      cases hp

end Loops

end FALRU

end Gem5.Mem
