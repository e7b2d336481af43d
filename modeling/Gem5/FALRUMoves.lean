/-
# Runs of moves on the fully associative tags

`moveToHead` and `moveToTail` take a block out of the list and link it in at one of its ends, after
the tracking of `Gem5.FALRUTracking` has been brought up to date.  From the constructor on, every
run of the two moves keeps what `CacheTracking::check` states, provided that no block is moved to
the head while the smallest tracked cache has only one block.
-/
import Gem5.FALRUTracking

namespace Gem5.Mem

open Runs

namespace FALRU

/-! ## Writing the links -/

theorem withLinks_setNextOf (s : FALRU) (next prev : ℕ → Option ℕ) (head tail : Option ℕ) (b : ℕ)
    (v : Option ℕ) : (s.withLinks next prev head tail).setNextOf (some b) v =
      .ok (s.withLinks (Function.update next b v) prev head tail) := by
  refine bind_eq_ok.mpr ⟨b, rfl, ?_⟩
  rw [withLinks_setNext]
  rfl

theorem withLinks_setPrevOf (s : FALRU) (next prev : ℕ → Option ℕ) (head tail : Option ℕ) (b : ℕ)
    (v : Option ℕ) : (s.withLinks next prev head tail).setPrevOf (some b) v =
      .ok (s.withLinks next (Function.update prev b v) head tail) := by
  refine bind_eq_ok.mpr ⟨b, rfl, ?_⟩
  rw [withLinks_setPrev]
  rfl

section Relink

variable {s : FALRU} {l : List ℕ} {k x : ℕ}

/-- The neighbours of a block are linked to each other. -/
theorem bypass_spec {p q : ℕ} (hp : s.prevs x = some p) (hq : s.nexts x = some q) (hpx : x ≠ p) :
    s.bypass x = .ok (s.withLinks (Function.update s.nexts p (some q))
      (Function.update s.prevs q (some p)) s.head s.tail) := by
  refine bind_eq_ok.mpr ⟨s.withLinks (Function.update s.nexts p (some q)) s.prevs s.head s.tail,
    ?_, ?_⟩
  · change s.setNextOf (s.prevs x) (s.nexts x) = _
    rw [hp, hq]
    exact withLinks_setNextOf s s.nexts s.prevs s.head s.tail p (some q)
  · change (s.withLinks (Function.update s.nexts p (some q)) s.prevs s.head s.tail).setPrevOf
      (Function.update s.nexts p (some q) x) (s.prevs x) = _
    rw [Function.update_of_ne hpx, hp, hq, withLinks_setPrevOf]

/-- A block other than the first is taken out and linked in before the head. -/
theorem relink_toHead (hl : s.Links l) (hx : l[k]? = some x) (hk : 0 < k) :
    ∃ u next prev tail, s.unlinkForHead x = .ok u ∧
      u.pushHead x = .ok (s.withLinks next prev (some x) tail) ∧
      DoublyLinked next prev (some x) tail (x :: l.eraseIdx k) := by
  have hlt : k < l.length := (List.getElem?_eq_some_iff.mp hx).1
  obtain ⟨p, hp⟩ : ∃ p, l[k - 1]? = some p := ⟨_, List.getElem?_eq_getElem (by omega)⟩
  obtain ⟨h, hh⟩ : ∃ h, l[0]? = some h := ⟨_, List.getElem?_eq_getElem (by omega)⟩
  have hprev : s.prevs x = some p := (hl.prev_pos hx hk).trans hp
  have hhead : s.head = some h := hl.head.trans hh
  have hxp : x ≠ p := hl.ne_of_index hx hp (by omega)
  -- `pushHead` after the block has been unlinked
  have hpush : ∀ next prev tail,
      (s.withLinks next prev s.head tail).pushHead x =
        .ok (s.withLinks (Function.update next x s.head)
          (Function.update (Function.update prev x none) h (some x)) (some x) tail) := by
    intro next prev tail
    refine bind_eq_ok.mpr ⟨s.withLinks (Function.update next x s.head)
      (Function.update (Function.update prev x none) h (some x)) s.head tail, ?_, rfl⟩
    rw [withLinks_setNext, withLinks_setPrev]
    change (s.withLinks _ _ s.head tail).setPrevOf s.head (some x) = _
    rw [hhead, withLinks_setPrevOf]
    rfl
  by_cases hlast : some x = s.tail
  · have hnone : s.nexts x = none := by
      rw [hl.next k x hx]
      exact List.getElem?_eq_none (by rw [(hl.eq_tail_iff hx).mp hlast])
    refine ⟨s.withLinks (Function.update s.nexts p none) s.prevs s.head (some p), _, _, _, ?_,
      hpush _ _ _, hl.moveFront hx hk ?_ ?_ (by rw [if_pos hlast, hprev])⟩
    · unfold unlinkForHead
      rw [if_pos hlast]
      refine bind_eq_ok.mpr ⟨(), require_ok ?_, ?_⟩
      · change (s.nexts x).isNone = true
        rw [hnone]
        rfl
      · change (s.withLinks s.nexts s.prevs s.head (s.prevs x)).setNextOf (s.prevs x) none = _
        rw [hprev, withLinks_setNextOf]
    · intro y
      rw [hprev, hnone]
      simp only [Function.update_apply, Option.some.injEq]
    · intro y
      rw [hhead, hnone]
      simp only [Function.update_apply, Option.some.injEq, reduceCtorEq, if_false]
  · obtain ⟨q, hq⟩ : ∃ q, l[k + 1]? = some q := by
      have := (hl.eq_tail_iff hx).not.mp hlast
      exact ⟨_, List.getElem?_eq_getElem (by omega)⟩
    have hnext : s.nexts x = some q := (hl.next k x hx).trans hq
    refine ⟨_, _, _, _, ?_, hpush (Function.update s.nexts p (some q))
      (Function.update s.prevs q (some p)) s.tail, hl.moveFront hx hk ?_ ?_ (if_neg hlast).symm⟩
    · unfold unlinkForHead
      rw [if_neg hlast]
      exact bypass_spec hprev hnext hxp
    · intro y
      rw [hprev, hnext]
      simp only [Function.update_apply, Option.some.injEq]
    · intro y
      rw [hhead, hnext, hprev]
      simp only [Function.update_apply, Option.some.injEq]

/-- A block other than the last is taken out and linked in behind the tail. -/
theorem relink_toTail (hl : s.Links l) (hx : l[k]? = some x) (hk : k + 1 < l.length) :
    ∃ u next prev head, s.unlinkForTail x = .ok u ∧
      u.pushTail x = .ok (s.withLinks next prev head (some x)) ∧
      DoublyLinked next prev head (some x) (l.eraseIdx k ++ [x]) := by
  obtain ⟨q, hq⟩ : ∃ q, l[k + 1]? = some q := ⟨_, List.getElem?_eq_getElem hk⟩
  obtain ⟨e, he⟩ : ∃ e, l[l.length - 1]? = some e := ⟨_, List.getElem?_eq_getElem (by omega)⟩
  have hnext : s.nexts x = some q := (hl.next k x hx).trans hq
  have htail : s.tail = some e := hl.tail.trans he
  have hpush : ∀ next prev head,
      (s.withLinks next prev head s.tail).pushTail x =
        .ok (s.withLinks (Function.update (Function.update next x none) e (some x))
          (Function.update prev x s.tail) head (some x)) := by
    intro next prev head
    refine bind_eq_ok.mpr ⟨s.withLinks (Function.update (Function.update next x none) e (some x))
      (Function.update prev x s.tail) head s.tail, ?_, rfl⟩
    rw [withLinks_setPrev, withLinks_setNext]
    change (s.withLinks _ _ head s.tail).setNextOf s.tail (some x) = _
    rw [htail, withLinks_setNextOf]
    rfl
  by_cases hfirst : some x = s.head
  · have hnone : s.prevs x = none := by
      rw [hl.prev k x hx, if_pos ((hl.eq_head_iff hx).mp hfirst)]
    refine ⟨s.withLinks s.nexts (Function.update s.prevs q none) (some q) s.tail, _, _, _, ?_,
      hpush _ _ _, hl.moveBack hx hk ?_ ?_ (by rw [if_pos hfirst, hnext])⟩
    · unfold unlinkForTail
      rw [if_pos hfirst]
      refine bind_eq_ok.mpr ⟨(), require_ok ?_, ?_⟩
      · change (s.prevs x).isNone = true
        rw [hnone]
        rfl
      · change (s.withLinks s.nexts s.prevs (s.nexts x) s.tail).setPrevOf (s.nexts x) none = _
        rw [hnext, withLinks_setPrevOf]
    · intro y
      rw [htail, hnone]
      simp only [Function.update_apply, Option.some.injEq, reduceCtorEq, if_false]
    · intro y
      rw [hnext, hnone]
      simp only [Function.update_apply, Option.some.injEq]
  · have hk0 : 0 < k := by
      have := (hl.eq_head_iff hx).not.mp hfirst
      omega
    obtain ⟨p, hp⟩ : ∃ p, l[k - 1]? = some p := ⟨_, List.getElem?_eq_getElem (by omega)⟩
    have hprev : s.prevs x = some p := (hl.prev_pos hx hk0).trans hp
    refine ⟨_, _, _, _, ?_, hpush (Function.update s.nexts p (some q))
      (Function.update s.prevs q (some p)) s.head, hl.moveBack hx hk ?_ ?_ (if_neg hfirst).symm⟩
    · unfold unlinkForTail
      rw [if_neg hfirst]
      exact bypass_spec hprev hnext (hl.ne_of_index hx hp (by omega))
    · intro y
      rw [htail, hnext, hprev]
      simp only [Function.update_apply, Option.some.injEq]
    · intro y
      rw [hnext, hprev]
      simp only [Function.update_apply, Option.some.injEq]

end Relink

/-! ## The moves -/

/-- The blocks are on the list `l`, and the tracking is right for it; the smallest tracked cache
holds `n` blocks. -/
structure Tidy (n : ℕ) (s : FALRU) (l : List ℕ) : Prop where
  links : s.Links l
  tracked : Tracked n s.numTrackedCaches l s.masks s.boundaries
  perm : l.Perm (List.range s.numBlocks)
  sized : Sized n s.numTrackedCaches s.numBlocks

variable {s : FALRU} {n x : ℕ} {l : List ℕ}

theorem Tidy.length (h : Tidy n s l) : l.length = s.numBlocks := by
  rw [h.perm.length_eq, List.length_range]

theorem Tidy.exists_index (h : Tidy n s l) (hx : x < s.numBlocks) : ∃ k : ℕ, l[k]? = some x :=
  List.mem_iff_getElem?.mp (h.perm.mem_iff.mpr (List.mem_range.mpr hx))

/-- The two states differ in the links and the tracking only. -/
def Moved (s v : FALRU) : Prop :=
  ∃ mask boundaries next prev head tail,
    v = (s.withTracking mask boundaries).withLinks next prev head tail

theorem Moved.refl (s : FALRU) : Moved s s :=
  ⟨s.masks, s.boundaries, s.nexts, s.prevs, s.head, s.tail, rfl⟩

theorem moveToHead_head (h : some x = s.head) : s.moveToHead x = .ok s :=
  if_pos h

theorem moveToTail_tail (h : some x = s.tail) : s.moveToTail x = .ok s :=
  if_pos h

/-- `moveToHead` brings a block to the front of the list. -/
theorem moveToHead_spec {k : ℕ} (h : Tidy n s l) (hx : l[k]? = some x) (hk : 0 < k) :
    ∃ v, s.moveToHead x = .ok v ∧ Moved s v ∧ v.Links (x :: l.eraseIdx k) ∧
      (∀ j, j < s.numTrackedCaches → v.boundaries j = headBoundary n l k x j) ∧
      Masked n s.numTrackedCaches (x :: l.eraseIdx k) v.masks := by
  have hhead : ¬ some x = s.head := fun hh => hk.ne' ((h.links.eq_head_iff hx).mp hh)
  obtain ⟨mask, boundaries, htrack, hboundary, hmask⟩ := moveBlockToHead_spec h.links
    (h.length.symm ▸ h.sized) h.tracked hx hk
  obtain ⟨u, next, prev, tail, hunlink, hpush, hlinks⟩ :=
    relink_toHead (s := s.withTracking mask boundaries) h.links hx hk
  refine ⟨_, ?_, ⟨mask, boundaries, next, prev, some x, tail, rfl⟩, hlinks, hboundary, hmask⟩
  unfold moveToHead
  rw [if_neg hhead]
  exact bind_eq_ok.mpr ⟨_, htrack, bind_eq_ok.mpr ⟨u, hunlink, hpush⟩⟩

/-- A move to the head keeps the list and the tracking if the block is the head, or the smallest
tracked cache has two blocks, or there is no tracked cache. -/
theorem Tidy.moveToHead {k : ℕ} (h : Tidy n s l) (hx : l[k]? = some x)
    (hn : k = 0 ∨ 2 ≤ n ∨ s.numTrackedCaches = 0) :
    ∃ v, s.moveToHead x = .ok v ∧ Moved s v ∧ Tidy n v (x :: l.eraseIdx k) := by
  by_cases hk : k = 0
  · subst hk
    refine ⟨s, moveToHead_head ((h.links.eq_head_iff hx).mpr rfl), Moved.refl s, ?_⟩
    rw [DoublyLinked.toFront_zero hx]
    exact h
  · obtain ⟨v, hv, hmoved, hlinks, hboundary, hmask⟩ := moveToHead_spec h hx (Nat.pos_of_ne_zero hk)
    have hperm := (DoublyLinked.perm_toFront hx).trans h.perm
    refine ⟨v, hv, hmoved, ?_⟩
    obtain ⟨mask, boundaries, next, prev, head, tail, rfl⟩ := hmoved
    refine ⟨hlinks, ⟨fun j hj => (hboundary j hj).trans (if_neg ?_), hmask⟩, hperm, h.sized⟩
    have hj' : j < s.numTrackedCaches := hj
    have hpow := Nat.le_mul_of_pos_right n (Nat.two_pow_pos j)
    omega

/-- **A lost boundary.**  If the smallest tracked cache has one block, a move to the head of a block
that is not the head takes its boundary to the null pointer. -/
theorem Tidy.boundary_lost {k : ℕ} (h : Tidy 1 s l) (hx : l[k]? = some x) (hk : 0 < k)
    (hcaches : 0 < s.numTrackedCaches) :
    ∃ v, s.moveToHead x = .ok v ∧ Moved s v ∧ v.Links (x :: l.eraseIdx k) ∧
      v.boundaries 0 = none ∧ Masked 1 s.numTrackedCaches (x :: l.eraseIdx k) v.masks := by
  obtain ⟨v, hv, hmoved, hlinks, hboundary, hmask⟩ := moveToHead_spec h hx hk
  exact ⟨v, hv, hmoved, hlinks, (hboundary 0 hcaches).trans (if_pos rfl), hmask⟩

/-- A move to the tail keeps the list and the tracking. -/
theorem Tidy.moveToTail {k : ℕ} (h : Tidy n s l) (hx : l[k]? = some x) :
    ∃ v, s.moveToTail x = .ok v ∧ Moved s v ∧ Tidy n v (l.eraseIdx k ++ [x]) := by
  have hlt : k < l.length := (List.getElem?_eq_some_iff.mp hx).1
  by_cases hlast : k + 1 = l.length
  · obtain ⟨hlt, rfl⟩ := List.getElem?_eq_some_iff.mp hx
    refine ⟨s, moveToTail_tail ((h.links.eq_tail_iff hx).mpr hlast), Moved.refl s, ?_⟩
    rw [List.eraseIdx_eq_take_drop_succ, List.drop_of_length_le (by omega), List.append_nil,
      List.take_append_getElem hlt, List.take_of_length_le (by omega)]
    exact h
  · have htail : ¬ some x = s.tail := fun ht => hlast ((h.links.eq_tail_iff hx).mp ht)
    obtain ⟨mask, boundaries, htrack, htracked⟩ := moveBlockToTail_spec h.links
      (h.length.symm ▸ h.sized) h.tracked hx
    obtain ⟨u, next, prev, head, hunlink, hpush, hlinks⟩ :=
      relink_toTail (s := s.withTracking mask boundaries) h.links hx (by omega)
    refine ⟨_, ?_, ⟨mask, boundaries, next, prev, head, some x, rfl⟩, hlinks, htracked,
      (DoublyLinked.perm_toBack hx).trans h.perm, h.sized⟩
    unfold FALRU.moveToTail
    rw [if_neg htail]
    exact bind_eq_ok.mpr ⟨_, htrack, bind_eq_ok.mpr ⟨u, hunlink, hpush⟩⟩

/-! ## Construction -/

theorem initLoop_none (rounds currSize trackedCacheSize : ℕ) (inCachesMask : CachesMask) (j : ℕ)
    (s : FALRU) : initLoop rounds none currSize trackedCacheSize inCachesMask j s = .ok s := by
  cases rounds <;> rfl

/-- The loop of `CacheTracking::init` is at position `p` of the list, and `j` boundaries are set. -/
structure InitLoop (n caches : ℕ) (l : List ℕ) (p j : ℕ) (inCachesMask : CachesMask)
    (mask : ℕ → CachesMask) (boundaries : ℕ → Option ℕ) : Prop where
  le : j ≤ caches
  round : ∀ i, i < caches → (i < j ↔ n * 2 ^ i ≤ p)
  current : ∀ i, inCachesMask.getLsbD i = true ↔ i < caches ∧ p < n * 2 ^ i
  boundary : ∀ i, i < j → boundaries i = l[n * 2 ^ i - 1]?
  mask : ∀ q c, q < p → l[q]? = some c →
    ∀ i, (mask c).getLsbD i = true ↔ i < caches ∧ q < n * 2 ^ i

section Init

variable {s : FALRU} {n : ℕ} {l : List ℕ}

/-- One block of the loop: its mask is set, and it becomes the boundary of the cache that ends at
it. -/
theorem InitLoop.step (hl : s.Links l) (hn : 0 < n) (hT : s.numTrackedCaches ≤ 32)
    (hlen : l.length = n * 2 ^ s.numTrackedCaches) {p j x : ℕ} (hx : l[p]? = some x)
    {current : CachesMask} {mask : ℕ → CachesMask} {boundaries : ℕ → Option ℕ}
    (h : InitLoop n s.numTrackedCaches l p j current mask boundaries) :
    if p + 1 = n * 2 ^ j ∧ p + 1 ≠ l.length then
      j < s.numTrackedCaches ∧ InitLoop n s.numTrackedCaches l (p + 1) (j + 1)
        (current &&& ~~~(1#32 <<< j)) (Function.update mask x current)
        (Function.update boundaries j (some x))
    else InitLoop n s.numTrackedCaches l (p + 1) j current (Function.update mask x current)
      boundaries := by
  have hmono : ∀ i k, i < k → n * 2 ^ i < n * 2 ^ k := fun i k hik =>
    Nat.mul_lt_mul_of_pos_left (Nat.pow_lt_pow_right (by decide) hik) hn
  have hlt : p < l.length := (List.getElem?_eq_some_iff.mp hx).1
  have hmask : ∀ q c, q < p + 1 → l[q]? = some c → ∀ i,
      (Function.update mask x current c).getLsbD i = true ↔
        i < s.numTrackedCaches ∧ q < n * 2 ^ i := by
    intro q c hq hc i
    by_cases hqp : q = p
    · subst hqp
      obtain rfl := Option.some.inj (hc.symm.trans hx)
      rw [Function.update_self]
      exact h.current i
    · rw [Function.update_of_ne (hl.ne_of_index hc hx hqp)]
      exact h.mask q c (by omega) hc i
  -- the caches are at least as large as the next one exactly from that one on
  have hcmp : ∀ i k, n * 2 ^ i ≤ n * 2 ^ k ↔ i ≤ k := by
    intro i k
    constructor
    · intro hle
      by_contra hki
      have := hmono k i (by omega)
      omega
    · intro hik
      exact Nat.mul_le_mul_left n (Nat.pow_le_pow_right (by decide) hik)
  by_cases hcase : p + 1 = n * 2 ^ j ∧ p + 1 ≠ l.length
  · rw [if_pos hcase]
    obtain ⟨hend, hne⟩ := hcase
    have hj : j < s.numTrackedCaches := by
      by_contra hj
      have := (hcmp s.numTrackedCaches j).mpr (by omega)
      omega
    refine ⟨hj, hj, ?_, ?_, ?_, hmask⟩
    · intro i hi
      rw [hend, hcmp i j]
      omega
    · intro i
      have hij := hcmp i j
      rw [Base.getLsbD_clearBit (by omega : j < 32)]
      simp only [Bool.and_eq_true, decide_eq_true_eq, h.current i, hend]
      constructor
      · rintro ⟨⟨hi, hp⟩, hne⟩
        refine ⟨hi, lt_of_le_of_ne (by omega) fun heq => hne ?_⟩
        have hle := (hcmp i j).mp heq.ge
        have hge := (hcmp j i).mp heq.le
        omega
      · rintro ⟨hi, hp⟩
        refine ⟨⟨hi, by omega⟩, ?_⟩
        rintro rfl
        omega
    · intro i hi
      by_cases hij : i = j
      · subst hij
        rw [Function.update_self, ← hend, Nat.add_sub_cancel, hx]
      · rw [Function.update_of_ne hij]
        exact h.boundary i (by omega)
  · rw [if_neg hcase]
    have hskip : ∀ i, i < s.numTrackedCaches → p + 1 ≠ n * 2 ^ i := by
      intro i hi heq
      have hji : ¬ i < j := by
        rw [h.round i hi]
        omega
      have hlast := hmono i s.numTrackedCaches hi
      have hij : i ≠ j := by
        rintro rfl
        exact hcase ⟨heq, by omega⟩
      have hjlt := hmono j i (by omega)
      have := (h.round j (by omega)).mpr (by omega)
      omega
    refine ⟨h.le, ?_, ?_, h.boundary, hmask⟩
    · intro i hi
      rw [h.round i hi]
      have := hskip i hi
      omega
    · intro i
      rw [h.current i]
      constructor
      · rintro ⟨hi, hp⟩
        have := hskip i hi
        omega
      · rintro ⟨hi, hp⟩
        omega

/-- The loop ends with the tracking right for the list. -/
theorem initLoop_spec (hl : s.Links l) (hn : 0 < n) (hT : s.numTrackedCaches ≤ 32)
    (hlen : l.length = n * 2 ^ s.numTrackedCaches) (hblk : 0 < s.blkSize) (rounds : ℕ) :
    ∀ {p j : ℕ} {current : CachesMask} {mask : ℕ → CachesMask} {boundaries : ℕ → Option ℕ},
      rounds + p = l.length → InitLoop n s.numTrackedCaches l p j current mask boundaries →
      ∃ mask' boundaries',
        initLoop rounds l[p]? (s.blkSize * p) (s.blkSize * (n * 2 ^ j)) current j
          (s.withTracking mask boundaries) = .ok (s.withTracking mask' boundaries') ∧
        Tracked n s.numTrackedCaches l mask' boundaries' := by
  induction rounds with
  | zero =>
    intro p j current mask boundaries hp h
    refine ⟨mask, boundaries, ?_, ?_, ?_⟩
    · rw [List.getElem?_eq_none (by omega), initLoop_none]
    · intro i hi
      refine h.boundary i ((h.round i hi).mpr ?_)
      rw [Nat.zero_add] at hp
      rw [hp, hlen]
      exact Nat.mul_le_mul_left n (Nat.pow_le_pow_right (by decide) hi.le)
    · intro q c hc
      exact h.mask q c (by have := (List.getElem?_eq_some_iff.mp hc).1; omega) hc
  | succ rounds ih =>
    intro p j current mask boundaries hp h
    obtain ⟨x, hx⟩ : ∃ x, l[p]? = some x := ⟨_, List.getElem?_eq_getElem (by omega)⟩
    have hnext : s.nexts x = l[p + 1]? := hl.next p x hx
    have hcond : (s.blkSize * p + s.blkSize = s.blkSize * (n * 2 ^ j) ∧ some x ≠ s.tail) ↔
        (p + 1 = n * 2 ^ j ∧ p + 1 ≠ l.length) := by
      rw [← Nat.mul_succ, Nat.mul_right_inj hblk.ne', ne_eq, hl.eq_tail_iff hx]
    have hstep := h.step hl hn hT hlen hx
    rw [hx]
    unfold initLoop
    by_cases hcase : p + 1 = n * 2 ^ j ∧ p + 1 ≠ l.length
    · rw [if_pos hcase] at hstep
      obtain ⟨mask', boundaries', hrest, htracked⟩ := ih (by omega) hstep.2
      refine ⟨mask', boundaries', ?_, htracked⟩
      have hpos := hcond.mpr hcase
      refine (if_pos hpos).trans (bind_eq_ok.mpr ⟨(), require_ok (decide_eq_true hstep.1), ?_⟩)
      rw [withTracking_setMask, withTracking_setBoundary]
      change initLoop rounds (s.nexts x) (s.blkSize * (p + 1)) _ _ _ _ = _
      rw [hnext, Nat.mul_assoc s.blkSize, Nat.mul_assoc n, ← Nat.pow_succ]
      exact hrest
    · rw [if_neg hcase] at hstep
      obtain ⟨mask', boundaries', hrest, htracked⟩ := ih (by omega) hstep
      refine ⟨mask', boundaries', ?_, htracked⟩
      refine (if_neg fun hpos => hcase (hcond.mp hpos)).trans ?_
      rw [withTracking_setMask]
      change initLoop rounds (s.nexts x) (s.blkSize * (p + 1)) _ _ _ _ = _
      rw [hnext]
      exact hrest

end Init

theorem isPowerOf2_two_pow (b : ℕ) : isPowerOf2 (2 ^ b) = true := by
  unfold isPowerOf2
  rw [Nat.and_two_pow_sub_one_eq_mod, Nat.mod_self, decide_eq_true (Nat.two_pow_pos b).ne']
  rfl

/-- `tagsInit` links two or more blocks in the order of their numbers. -/
theorem tagsInit_links {numBlocks : ℕ} (h2 : 2 ≤ numBlocks) (h32 : numBlocks < 2 ^ 32) :
    DoublyLinked (fun b => (tagsInitBlk numBlocks b).next) (fun b => (tagsInitBlk numBlocks b).prev)
      (some 0) (some (numBlocks - 1)) (List.range numBlocks) where
  nodup := List.nodup_range
  head := (List.getElem?_range (by omega)).symm
  tail := by rw [List.length_range, List.getElem?_range (by omega)]
  next := by
    intro i x hx
    obtain ⟨hi, rfl⟩ := List.getElem?_eq_some_iff.mp hx
    rw [List.length_range] at hi
    rw [List.getElem_range]
    unfold tagsInitBlk
    by_cases hlast : i = numBlocks - 1
    · rw [if_pos hlast, List.getElem?_eq_none (by rw [List.length_range]; omega)]
    · rw [if_neg hlast, List.getElem?_range (by omega)]
      by_cases h0 : i = 0
      · rw [if_pos h0, h0]
      · rw [if_neg h0]
  prev := by
    intro i x hx
    obtain ⟨hi, rfl⟩ := List.getElem?_eq_some_iff.mp hx
    rw [List.length_range] at hi
    rw [List.getElem_range]
    unfold tagsInitBlk
    by_cases h0 : i = 0
    · rw [if_neg (by omega), if_pos h0, if_pos h0]
    · rw [if_neg h0, List.getElem?_range (by omega)]
      by_cases hlast : i = numBlocks - 1
      · rw [if_pos hlast]
        -- the block number of the source is a difference of 32-bit numbers
        rw [show numBlocks + 2 ^ 32 - 2 = numBlocks - 2 + 2 ^ 32 by omega, Nat.add_mod_right,
          Nat.mod_eq_of_lt (by omega), if_neg h0, hlast, Nat.sub_sub]
      · rw [if_neg hlast, if_neg h0]

theorem trackedCaches_two_pow (sz m : ℕ) : trackedCaches (2 ^ sz) (2 ^ m) = sz - m := by
  unfold trackedCaches
  rw [Nat.log2_two_pow, Nat.log2_two_pow]
  by_cases h : m < sz
  · rw [if_pos (Nat.pow_lt_pow_right (by decide) h)]
  · rw [if_neg fun hlt => h ((Nat.pow_lt_pow_iff_right (by decide)).mp hlt)]
    omega

/-- **The constructor.**  For sizes that are powers of two, at least one block for the smallest
tracked cache and two blocks in all, the tracking is right from the start. -/
theorem init_spec {b m sz : ℕ} (hbm : b ≤ m) (hbs : b < sz) (hsz : sz < 32) :
    ∃ mask boundaries, init (2 ^ b) (2 ^ sz) (2 ^ m) =
        .ok ((tagsInit (2 ^ b) (2 ^ m) (2 ^ (sz - b)) (sz - m)).withTracking mask boundaries) ∧
      Tidy (2 ^ (m - b))
        ((tagsInit (2 ^ b) (2 ^ m) (2 ^ (sz - b)) (sz - m)).withTracking mask boundaries)
        (List.range (2 ^ (sz - b))) := by
  set s := tagsInit (2 ^ b) (2 ^ m) (2 ^ (sz - b)) (sz - m)
  have h2 : 2 ≤ 2 ^ (sz - b) := Nat.le_self_pow (by omega) 2
  have h32 : 2 ^ (sz - b) < 2 ^ 32 := Nat.pow_lt_pow_right (by decide) (by omega)
  have hlinks : s.Links (List.range (2 ^ (sz - b))) := tagsInit_links h2 h32
  have hsized : Sized (2 ^ (m - b)) (sz - m) (2 ^ (sz - b)) := by
    refine ⟨Nat.two_pow_pos _, by omega, fun i hi => ?_⟩
    rw [← Nat.pow_add]
    exact Nat.pow_lt_pow_right (by decide) (by omega)
  obtain ⟨mask, boundaries, htrack, htracked⟩ : ∃ mask boundaries,
      s.trackingInit = .ok (s.withTracking mask boundaries) ∧
      Tracked (2 ^ (m - b)) (sz - m) (List.range (2 ^ (sz - b))) mask boundaries := by
    unfold trackingInit
    by_cases hT : s.numTrackedCaches = 0
    · have hT' : sz - m = 0 := hT
      refine ⟨s.masks, s.boundaries, ?_, ?_, ?_⟩
      · rw [if_neg (not_not.mpr hT), initLoop_none]
        rfl
      · intro i hi
        omega
      · intro p c _ i
        have hmask : s.masks c = 0#32 := by
          change (tagsInitBlk (2 ^ (sz - b)) c).inCachesMask = 0#32
          unfold tagsInitBlk
          split_ifs <;> rfl
        rw [hmask, hT', BitVec.getLsbD_zero]
        simp
    · have hlen : (List.range (2 ^ (sz - b))).length = 2 ^ (m - b) * 2 ^ s.numTrackedCaches := by
        have hT' : s.numTrackedCaches = sz - m := rfl
        rw [List.length_range, hT', ← Nat.pow_add]
        congr 1
        omega
      have hstart : InitLoop (2 ^ (m - b)) s.numTrackedCaches (List.range (2 ^ (sz - b))) 0 0
          s.inAllCachesMask s.masks s.boundaries := by
        refine ⟨Nat.zero_le _, ?_, ?_, ?_, ?_⟩
        · intro i hi
          have := hsized.pos_pow i
          omega
        · intro i
          rw [getLsbD_inAllCachesMask hsized.le]
          exact (and_iff_left (hsized.pos_pow i)).symm
        · intro i hi
          omega
        · intro q c hq
          omega
      obtain ⟨mask, boundaries, hloop, htracked⟩ := initLoop_spec hlinks hsized.pos hsized.le hlen
        (Nat.two_pow_pos b) (2 ^ (sz - b)) List.length_range.symm hstart
      refine ⟨mask, boundaries, ?_, htracked⟩
      rw [if_pos hT]
      rw [← hlinks.head] at hloop
      have hmin : s.blkSize * (2 ^ (m - b) * 2 ^ 0) = s.minTrackedSize := by
        change 2 ^ b * (2 ^ (m - b) * 2 ^ 0) = 2 ^ m
        rw [Nat.pow_zero, Nat.mul_one, ← Nat.pow_add, Nat.add_sub_cancel' hbm]
      rw [hmin] at hloop
      exact hloop
  refine ⟨mask, boundaries, ?_, hlinks, htracked, List.Perm.refl _, hsized⟩
  unfold init
  have hblocks : 2 ^ sz / 2 ^ b = 2 ^ (sz - b) := Nat.pow_div hbs.le (by decide)
  rw [trackedCaches_two_pow, hblocks]
  exact bind_eq_ok.mpr ⟨(), require_ok (decide_eq_true (by omega)),
    bind_eq_ok.mpr ⟨(), require_ok (isPowerOf2_two_pow b),
    bind_eq_ok.mpr ⟨(), require_ok (isPowerOf2_two_pow sz),
    bind_eq_ok.mpr ⟨(), require_ok (decide_eq_true (Nat.two_pow_pos _)), htrack⟩⟩⟩⟩

/-! ## Runs of moves -/

/-- A move of a block: to the head by an access or an insertion, to the tail by an invalidation. -/
inductive Move where
  | toHead (blk : ℕ)
  | toTail (blk : ℕ)
  deriving DecidableEq, Repr

/-- The block that is moved. -/
def Move.blk : Move → ℕ
  | .toHead blk => blk
  | .toTail blk => blk

/-- One move. -/
def move (s : FALRU) : Move → Except FALRUFail FALRU
  | .toHead blk => s.moveToHead blk
  | .toTail blk => s.moveToTail blk

/-- No boundary is lost: the smallest tracked size is two blocks, or the block that goes to the head
is there already. -/
def KeepsBoundaries (s : FALRU) : Move → Prop
  | .toHead blk => 2 * s.blkSize ≤ s.minTrackedSize ∨ s.head = some blk
  | .toTail _ => True

instance (s : FALRU) : (m : Move) → Decidable (KeepsBoundaries s m)
  | .toHead blk => inferInstanceAs (Decidable (_ ∨ s.head = some blk))
  | .toTail _ => .isTrue trivial

/-- The blocks are linked in the order `l`, and what `CacheTracking::check` tests holds. -/
structure Checked (s : FALRU) (l : List ℕ) : Prop where
  perm : l.Perm (List.range s.numBlocks)
  links : s.Links l
  boundary : ∀ i, i < s.numTrackedCaches →
    ∃ b, s.boundaries i = some b ∧ l[s.minTrackedSize * 2 ^ i / s.blkSize - 1]? = some b
  mask : ∀ p b, l[p]? = some b → ∀ i, (s.blks b).inCachesMask.getLsbD i = true ↔
    i < s.numTrackedCaches ∧ (p + 1) * s.blkSize ≤ s.minTrackedSize * 2 ^ i

theorem Tidy.checked (h : Tidy n s l) (hblk : 0 < s.blkSize)
    (hmin : s.minTrackedSize = s.blkSize * n) : s.Checked l where
  perm := h.perm
  links := h.links
  boundary := by
    intro i hi
    have hlt := h.sized.lt i hi
    obtain ⟨b, hb⟩ : ∃ b, l[n * 2 ^ i - 1]? = some b :=
      ⟨_, List.getElem?_eq_getElem (by rw [h.length]; omega)⟩
    refine ⟨b, (h.tracked.boundary i hi).trans hb, ?_⟩
    rw [hmin, Nat.mul_assoc, Nat.mul_div_cancel_left _ hblk, hb]
  mask := by
    intro p b hp i
    rw [hmin, Nat.mul_assoc, Nat.mul_comm (p + 1), Nat.mul_le_mul_left_iff hblk]
    exact h.tracked.mask p b hp i

/-- What the constructor fixes and the moves keep. -/
structure Sizes (b m sz : ℕ) (s : FALRU) : Prop where
  blkSize : s.blkSize = 2 ^ b
  minTrackedSize : s.minTrackedSize = 2 ^ m
  numBlocks : s.numBlocks = 2 ^ (sz - b)

/-- One move keeps the list and the tracking. -/
theorem Tidy.move {b m sz n : ℕ} {s : FALRU} {l : List ℕ} (h : Tidy n s l) (hs : Sizes b m sz s)
    (hmin : 2 ^ m = 2 ^ b * n) {op : Move} (hblk : op.blk < s.numBlocks)
    (hkeep : KeepsBoundaries s op) :
    ∃ v l', s.move op = .ok v ∧ Tidy n v l' ∧ Sizes b m sz v := by
  obtain ⟨k, hx⟩ := h.exists_index hblk
  cases op with
  | toHead blk =>
    have hn : k = 0 ∨ 2 ≤ n ∨ s.numTrackedCaches = 0 := by
      rcases hkeep with hsize | hhead
      · right
        left
        rw [hs.blkSize, hs.minTrackedSize, hmin, Nat.mul_comm 2] at hsize
        exact Nat.le_of_mul_le_mul_left hsize (Nat.two_pow_pos b)
      · exact .inl ((h.links.eq_head_iff hx).mp hhead.symm)
    obtain ⟨v, hv, ⟨_, _, _, _, _, _, rfl⟩, htidy⟩ := h.moveToHead hx hn
    exact ⟨_, _, hv, htidy, hs.blkSize, hs.minTrackedSize, hs.numBlocks⟩
  | toTail blk =>
    obtain ⟨v, hv, ⟨_, _, _, _, _, _, rfl⟩, htidy⟩ := h.moveToTail hx
    exact ⟨_, _, hv, htidy, hs.blkSize, hs.minTrackedSize, hs.numBlocks⟩

/-- **List and boundaries.**  The block size, the smallest tracked size and the size of the cache are
powers of two, the smallest tracked size at least one block and at most half the cache.  In every
run of moves that lose no boundary, no null pointer is followed, the blocks stay on one list that
is linked both ways, and what `CacheTracking::check` tests holds. -/
theorem moves_checked {b m sz : ℕ} (hbm : b ≤ m) (hmsz : m < sz) (hsz : sz < 32)
    (ops : List Move) (hops : ∀ op ∈ ops, op.blk < 2 ^ sz / 2 ^ b) :
    ∃ s₀, init (2 ^ b) (2 ^ sz) (2 ^ m) = .ok s₀ ∧ (Admitted KeepsBoundaries move s₀ ops →
      ∃ s l, run move s₀ ops = .ok s ∧ s.Checked l) := by
  obtain ⟨mask, boundaries, hinit, htidy⟩ := init_spec hbm (hbm.trans_lt hmsz) hsz
  have hmin : 2 ^ m = 2 ^ b * 2 ^ (m - b) := by
    rw [← Nat.pow_add, Nat.add_sub_cancel' hbm]
  have hblocks : 2 ^ sz / 2 ^ b = 2 ^ (sz - b) := Nat.pow_div (by omega) (by decide)
  rw [hblocks] at hops
  refine ⟨_, hinit, fun hadm => ?_⟩
  obtain ⟨s, hrun, l, ht, hs⟩ := run_total
    (P := fun s => ∃ l, Tidy (2 ^ (m - b)) s l ∧ Sizes b m sz s)
    (by
      rintro s op ⟨l, ht, hs⟩ ⟨hkeep, hblk⟩
      obtain ⟨v, l', hv, ht', hs'⟩ := ht.move hs hmin (hs.numBlocks.symm ▸ hblk) hkeep
      exact ⟨v, hv, l', ht', hs'⟩)
    ⟨_, htidy, rfl, rfl, rfl⟩ (hadm.and_forall hops)
  refine ⟨s, l, hrun, ht.checked ?_ ?_⟩
  · rw [hs.blkSize]
    exact Nat.two_pow_pos b
  · rw [hs.blkSize, hs.minTrackedSize, hmin]

/-- Four blocks of 64 bytes with a smallest tracked cache of two. -/
theorem moves_checked_four :
    ∃ s₀ s l, init (2 ^ 6) (2 ^ 8) (2 ^ 7) = .ok s₀ ∧
      run move s₀ [.toHead 3, .toHead 1, .toTail 2] = .ok s ∧ s.Checked l := by
  obtain ⟨s₀, hinit, hrun⟩ := @moves_checked 6 7 8 (by decide) (by decide)
    (by decide) [.toHead 3, .toHead 1, .toTail 2] (by decide)
  have hadm : ∀ s, init (2 ^ 6) (2 ^ 8) (2 ^ 7) = .ok s →
      Admitted KeepsBoundaries move s [.toHead 3, .toHead 1, .toTail 2] := by
    intro s hs
    obtain rfl := Except.ok.inj hs
    decide
  obtain ⟨s, l, hs, hl⟩ := hrun (hadm s₀ hinit)
  exact ⟨s₀, s, l, hinit, hs, hl⟩

/-- **A null boundary.**  In a cache of two blocks whose smallest tracked size is one block, a move
of the second block to the head loses the boundary, and the next move to the head follows a null
pointer. -/
theorem toHead_loses_boundary :
    ∃ s₀ s₁, init (2 ^ 6) (2 ^ 7) (2 ^ 6) = .ok s₀ ∧ s₀.move (.toHead 1) = .ok s₁ ∧
      (∀ l, ¬ s₁.Checked l) ∧ s₁.move (.toHead 0) = .error .nullDereference := by
  refine ⟨_, _, rfl, rfl, ?_, rfl⟩
  intro l hl
  obtain ⟨b, hb, _⟩ := hl.boundary 0 (by decide)
  cases hb

end FALRU

end Gem5.Mem
