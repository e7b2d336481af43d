/-
# The contents of the fully associative tags

The valid blocks of `Gem5.FALRU` are the first ones of the list, and the keys they hold, in the
order of the list, are those of a cache with least recently used replacement.  A hit moves a block
and its key to the front together; a miss drops the key of the last block, if it has one, and brings
that block to the front with the new key.
-/
import Gem5.FALRUMoves

namespace Gem5.Mem

open Runs

namespace FALRU

/-! ## States with the same list -/

/-- The states differ in the contents of the blocks, the hash table and the counters only. -/
structure SameOrder (s t : FALRU) : Prop where
  blkSize : t.blkSize = s.blkSize
  numBlocks : t.numBlocks = s.numBlocks
  numTrackedCaches : t.numTrackedCaches = s.numTrackedCaches
  nexts : t.nexts = s.nexts
  prevs : t.prevs = s.prevs
  head : t.head = s.head
  tail : t.tail = s.tail
  masks : t.masks = s.masks
  boundaries : t.boundaries = s.boundaries

theorem SameOrder.refl (s : FALRU) : SameOrder s s := ⟨rfl, rfl, rfl, rfl, rfl, rfl, rfl, rfl, rfl⟩

theorem SameOrder.trans {s t u : FALRU} (h : SameOrder s t) (h' : SameOrder t u) :
    SameOrder s u :=
  ⟨h'.blkSize.trans h.blkSize, h'.numBlocks.trans h.numBlocks,
    h'.numTrackedCaches.trans h.numTrackedCaches, h'.nexts.trans h.nexts, h'.prevs.trans h.prevs,
    h'.head.trans h.head, h'.tail.trans h.tail, h'.masks.trans h.masks,
    h'.boundaries.trans h.boundaries⟩

/-- A block with another tag or validity leaves the list as it is. -/
theorem sameOrder_setBlk (s : FALRU) (b : ℕ) (valid : Bool) (tag : TagHashKey) :
    SameOrder s (s.setBlk b { s.blks b with valid := valid, tag := tag }) where
  blkSize := rfl
  numBlocks := rfl
  numTrackedCaches := rfl
  head := rfl
  tail := rfl
  boundaries := rfl
  nexts := by
    funext c
    by_cases hc : c = b
    · subst hc
      simp [nexts, setBlk]
    · simp [nexts, setBlk, hc]
  prevs := by
    funext c
    by_cases hc : c = b
    · subst hc
      simp [prevs, setBlk]
    · simp [prevs, setBlk, hc]
  masks := by
    funext c
    by_cases hc : c = b
    · subst hc
      simp [masks, setBlk]
    · simp [masks, setBlk, hc]

theorem Tidy.congr {n : ℕ} {s t : FALRU} {l : List ℕ} (h : Tidy n s l) (hst : SameOrder s t) :
    Tidy n t l where
  links := by
    rw [Links, hst.nexts, hst.prevs, hst.head, hst.tail]
    exact h.links
  tracked := by
    rw [hst.numTrackedCaches, hst.masks, hst.boundaries]
    exact h.tracked
  perm := by
    rw [hst.numBlocks]
    exact h.perm
  sized := by
    rw [hst.numTrackedCaches, hst.numBlocks]
    exact h.sized

/-- The ends of the list and the masks, which is all that an access looks at. -/
structure Placed (n : ℕ) (s : FALRU) (l : List ℕ) : Prop where
  perm : l.Perm (List.range s.numBlocks)
  head : s.head = l[0]?
  tail : s.tail = l[s.numBlocks - 1]?
  masked : Masked n s.numTrackedCaches l s.masks
  sized : Sized n s.numTrackedCaches s.numBlocks

theorem Placed.length {n : ℕ} {s : FALRU} {l : List ℕ} (h : Placed n s l) :
    l.length = s.numBlocks := by
  rw [h.perm.length_eq, List.length_range]

theorem Tidy.placed {n : ℕ} {s : FALRU} {l : List ℕ} (h : Tidy n s l) : Placed n s l :=
  ⟨h.perm, h.links.head, h.length ▸ h.links.tail, h.tracked.mask, h.sized⟩

theorem Placed.congr {n : ℕ} {s t : FALRU} {l : List ℕ} (h : Placed n s l)
    (hst : SameOrder s t) : Placed n t l where
  perm := by
    rw [hst.numBlocks]
    exact h.perm
  head := hst.head.trans h.head
  tail := by
    rw [hst.tail, hst.numBlocks]
    exact h.tail
  masked := by
    rw [hst.numTrackedCaches, hst.masks]
    exact h.masked
  sized := by
    rw [hst.numTrackedCaches, hst.numBlocks]
    exact h.sized

/-- The last block is in no tracked cache. -/
theorem Placed.mask_back {n : ℕ} {s : FALRU} {l : List ℕ} (h : Placed n s l) {b : ℕ}
    (hb : l[s.numBlocks - 1]? = some b) : (s.blks b).inCachesMask = 0 := by
  apply BitVec.eq_of_getLsbD_eq
  intro i _
  refine Eq.trans ?_ BitVec.getLsbD_zero.symm
  by_contra hbit
  obtain ⟨hi, hlt⟩ := (h.masked _ b hb i).mp (Bool.eq_true_of_not_eq_false hbit)
  have := h.sized.lt i hi
  omega

/-! ## Contents -/

/-- The valid blocks are the first ones of the list `l`, and they hold the keys `cache`, as the
hash table says. -/
structure Content (s : FALRU) (l : List ℕ) (cache : List TagHashKey) : Prop where
  perm : l.Perm (List.range s.numBlocks)
  nodup : cache.Nodup
  le : cache.length ≤ s.numBlocks
  held : ∀ (p : ℕ) b key, l[p]? = some b → cache[p]? = some key →
    (s.blks b).valid = true ∧ (s.blks b).tag = key
  empty : ∀ (p : ℕ) b, l[p]? = some b → cache.length ≤ p → (s.blks b).valid = false
  hash : ∀ key b, s.tagHash key = some b ↔ ∃ p : ℕ, l[p]? = some b ∧ cache[p]? = some key

namespace Content

variable {s : FALRU} {l : List ℕ} {cache : List TagHashKey}

theorem nodup_blocks (h : Content s l cache) : l.Nodup := h.perm.nodup_iff.mpr List.nodup_range

theorem length (h : Content s l cache) : l.length = s.numBlocks := by
  rw [h.perm.length_eq, List.length_range]

theorem index_inj (h : Content s l cache) {i j b : ℕ} (hi : l[i]? = some b)
    (hj : l[j]? = some b) : i = j :=
  (List.getElem?_inj (List.getElem?_eq_some_iff.mp hi).1 h.nodup_blocks).mp (hi.trans hj.symm)

/-- The hash table has an entry exactly for the keys held. -/
theorem hash_eq_none (h : Content s l cache) {key : TagHashKey} (hkey : key ∉ cache) :
    s.tagHash key = none := by
  apply Option.eq_none_iff_forall_ne_some.mpr
  intro b hb
  obtain ⟨p, _, hp⟩ := (h.hash key b).mp hb
  exact hkey (List.mem_of_getElem? hp)

/-- Only the list, the tags and the hash table matter. -/
theorem congr (h : Content s l cache) {t : FALRU} (hblocks : t.numBlocks = s.numBlocks)
    (hvalid : ∀ b, (t.blks b).valid = (s.blks b).valid) (htag : ∀ b, (t.blks b).tag = (s.blks b).tag)
    (hhash : t.tagHash = s.tagHash) : Content t l cache where
  perm := hblocks.symm ▸ h.perm
  nodup := h.nodup
  le := hblocks.symm ▸ h.le
  held := by
    intro p b key hb hp
    rw [hvalid, htag]
    exact h.held p b key hb hp
  empty := by
    intro p b hb hp
    rw [hvalid]
    exact h.empty p b hb hp
  hash := by
    intro key b
    rw [hhash]
    exact h.hash key b

/-- A hit: block and key move to the front together. -/
theorem toFront (h : Content s l cache) {v : FALRU} (hv : Moved s v) {p b : ℕ} {key : TagHashKey}
    (hb : l[p]? = some b) (hkey : cache[p]? = some key) :
    Content v (b :: l.eraseIdx p) (key :: cache.eraseIdx p) where
  perm := by
    obtain ⟨_, _, _, _, _, _, rfl⟩ := hv
    exact (DoublyLinked.perm_toFront hb).trans h.perm
  nodup := (DoublyLinked.perm_toFront hkey).nodup_iff.mpr h.nodup
  le := by
    obtain ⟨_, _, _, _, _, _, rfl⟩ := hv
    rw [(DoublyLinked.perm_toFront hkey).length_eq]
    exact h.le
  held := by
    obtain ⟨_, _, _, _, _, _, rfl⟩ := hv
    intro i c k hc hk
    rw [DoublyLinked.getElem?_toFront] at hc hk
    by_cases hi : i = 0
    · rw [if_pos hi] at hc hk
      obtain rfl := Option.some.inj hc
      obtain rfl := Option.some.inj hk
      exact h.held p b key hb hkey
    · rw [if_neg hi] at hc hk
      by_cases hip : i ≤ p
      · rw [if_pos hip] at hc hk
        exact h.held (i - 1) c k hc hk
      · rw [if_neg hip] at hc hk
        exact h.held i c k hc hk
  empty := by
    have hp := (List.getElem?_eq_some_iff.mp hkey).1
    obtain ⟨_, _, _, _, _, _, rfl⟩ := hv
    intro i c hc hi
    rw [(DoublyLinked.perm_toFront hkey).length_eq] at hi
    rw [DoublyLinked.getElem?_toFront, if_neg (by omega), if_neg (by omega)] at hc
    exact h.empty i c hc hi
  hash := by
    obtain ⟨_, _, _, _, _, _, rfl⟩ := hv
    intro k c
    refine (h.hash k c).trans ⟨?_, ?_⟩
    · rintro ⟨i, hc, hk⟩
      by_cases hip : i = p
      · subst hip
        exact ⟨0, hb.symm.trans hc, hkey.symm.trans hk⟩
      · refine ⟨if i < p then i + 1 else i, ?_, ?_⟩
        all_goals
          rw [DoublyLinked.getElem?_toFront]
          by_cases hlt : i < p
          · rw [if_pos hlt, if_neg (Nat.succ_ne_zero i), if_pos (by omega), Nat.add_sub_cancel]
            assumption
          · rw [if_neg hlt, if_neg (by omega), if_neg (by omega)]
            assumption
    · rintro ⟨i, hc, hk⟩
      rw [DoublyLinked.getElem?_toFront] at hc hk
      by_cases hi : i = 0
      · rw [if_pos hi] at hc hk
        exact ⟨p, hb.trans hc, hkey.trans hk⟩
      · rw [if_neg hi] at hc hk
        by_cases hip : i ≤ p
        · rw [if_pos hip] at hc hk
          exact ⟨i - 1, hc, hk⟩
        · rw [if_neg hip] at hc hk
          exact ⟨i, hc, hk⟩

/-- An eviction of the block at the back drops the key there, if there is one. -/
theorem evict (h : Content s l cache) {b : ℕ} (htail : s.tail = some b)
    (hb : l[s.numBlocks - 1]? = some b) :
    ∃ t, s.evict b = .ok t ∧ SameOrder s t ∧ t.hits = s.hits ∧ t.misses = s.misses ∧
      (t.blks b).valid = false ∧ Content t l (cache.take (s.numBlocks - 1)) := by
  have hlast : s.numBlocks - 1 < s.numBlocks := by
    have := (List.getElem?_eq_some_iff.mp hb).1
    rw [h.length] at this
    exact this
  unfold FALRU.evict
  by_cases hfull : cache.length = s.numBlocks
  · obtain ⟨key, hkey⟩ : ∃ key, cache[s.numBlocks - 1]? = some key :=
      ⟨_, List.getElem?_eq_getElem (by omega)⟩
    obtain ⟨hvalid, htag⟩ := h.held _ b key hb hkey
    have hnew : ∀ p k, (cache.take (s.numBlocks - 1))[p]? = some k →
        p < s.numBlocks - 1 ∧ cache[p]? = some k := by
      intro p k hp
      rw [List.getElem?_take] at hp
      by_cases hlt : p < s.numBlocks - 1
      · rw [if_pos hlt] at hp
        exact ⟨hlt, hp⟩
      · rw [if_neg hlt] at hp
        cases hp
    have hother : ∀ {p c : ℕ}, l[p]? = some c → p < s.numBlocks - 1 → c ≠ b := by
      rintro p c hc hp rfl
      have := h.index_inj hc hb
      omega
    have hgone : ∀ p, p < s.numBlocks - 1 → cache[p]? ≠ some key := by
      intro p hp heq
      have := (List.getElem?_inj (List.getElem?_eq_some_iff.mp heq).1 h.nodup).mp
        (heq.trans hkey.symm)
      omega
    let erased : FALRU := { s with tagHash := Function.update s.tagHash (s.blks b).tag none }
    have hsame : SameOrder s erased := ⟨rfl, rfl, rfl, rfl, rfl, rfl, rfl, rfl, rfl⟩
    refine ⟨erased.setBlk b { s.blks b with valid := false, tag := (MaxAddr, false) }, ?_,
      hsame.trans (sameOrder_setBlk erased b false (MaxAddr, false)), rfl, rfl, ?_, ?_⟩
    · rw [if_pos hvalid]
      refine bind_eq_ok.mpr ⟨(), require_ok ?_, bind_eq_ok.mpr ⟨(), require_ok hvalid, ?_⟩⟩
      · rw [htag, (h.hash key b).mpr ⟨_, hb, hkey⟩]
        rfl
      · exact moveToTail_tail htail.symm
    · simp [setBlk]
    · refine ⟨h.perm, h.nodup.sublist (List.take_sublist _ _), ?_, ?_, ?_, ?_⟩
      · exact (List.length_take_le _ _).trans hlast.le
      · intro p c k hc hk
        obtain ⟨hp, hk'⟩ := hnew p k hk
        have hcb := hother hc hp
        simp only [setBlk, ne_eq, hcb, not_false_eq_true, Function.update_of_ne]
        exact h.held p c k hc hk'
      · intro p c hc hp
        have hplt : p < l.length := (List.getElem?_eq_some_iff.mp hc).1
        rw [List.length_take, hfull, min_eq_left hlast.le] at hp
        rw [h.length] at hplt
        obtain rfl : p = s.numBlocks - 1 := by omega
        obtain rfl := Option.some.inj (hc.symm.trans hb)
        simp [setBlk]
      · intro k c
        change Function.update s.tagHash (s.blks b).tag none k = some c ↔ _
        rw [htag]
        by_cases hk : k = key
        · subst hk
          rw [Function.update_self]
          refine iff_of_false nofun ?_
          rintro ⟨p, _, hp⟩
          obtain ⟨hlt, hp'⟩ := hnew p k hp
          exact hgone p hlt hp'
        · rw [Function.update_of_ne hk, h.hash k c]
          constructor
          · rintro ⟨p, hc, hp⟩
            have hlt : p < cache.length := (List.getElem?_eq_some_iff.mp hp).1
            have hne : p ≠ s.numBlocks - 1 := by
              rintro rfl
              exact hk (Option.some.inj (hp.symm.trans hkey))
            refine ⟨p, hc, ?_⟩
            rw [List.getElem?_take, if_pos (by omega)]
            exact hp
          · rintro ⟨p, hc, hp⟩
            exact ⟨p, hc, (hnew p k hp).2⟩
  · have hle := h.le
    have hinvalid := h.empty _ b hb (by omega)
    refine ⟨s, ?_, SameOrder.refl s, rfl, rfl, hinvalid, ?_⟩
    · rw [hinvalid]
      rfl
    · rw [List.take_of_length_le (by omega)]
      exact h

/-- An insertion brings the block at the back, with the new key, to the front. -/
theorem insert (h : Content s l cache) (hle : cache.length ≤ s.numBlocks - 1) {b : ℕ}
    (hb : l[s.numBlocks - 1]? = some b) {key : TagHashKey} (hkey : key ∉ cache) {v : FALRU}
    (hv : Moved (s.setBlk b { s.blks b with valid := true, tag := key }) v) :
    Content { v with tagHash := Function.update v.tagHash key (some b) }
      (b :: l.eraseIdx (s.numBlocks - 1)) (key :: cache) := by
  have hlast := (List.getElem?_eq_some_iff.mp hb).1
  rw [h.length] at hlast
  obtain ⟨_, _, _, _, _, _, rfl⟩ := hv
  have hother : ∀ {p c : ℕ}, l[p]? = some c → p < s.numBlocks - 1 → c ≠ b := by
    rintro p c hc hp rfl
    have := h.index_inj hc hb
    omega
  -- what is behind the new block was one position further to the front
  have hshift : ∀ {p c : ℕ}, (b :: l.eraseIdx (s.numBlocks - 1))[p]? = some c → p ≠ 0 →
      l[p - 1]? = some c ∧ p - 1 < s.numBlocks - 1 := by
    intro p c hc hp
    have hlt := (List.getElem?_eq_some_iff.mp hc).1
    rw [(DoublyLinked.perm_toFront hb).length_eq, h.length] at hlt
    rw [DoublyLinked.getElem?_toFront, if_neg hp, if_pos (by omega)] at hc
    exact ⟨hc, by omega⟩
  refine ⟨(DoublyLinked.perm_toFront hb).trans h.perm, List.nodup_cons.mpr ⟨hkey, h.nodup⟩, ?_,
    ?_, ?_, ?_⟩
  · change cache.length + 1 ≤ s.numBlocks
    omega
  · intro i c k hc hk
    by_cases hi : i = 0
    · subst hi
      obtain rfl := Option.some.inj hc
      obtain rfl := Option.some.inj hk
      simp [withLinks, withTracking, setBlk]
    · obtain ⟨hc', hp⟩ := hshift hc hi
      rw [List.getElem?_cons, if_neg hi] at hk
      have hcb := hother hc' hp
      simp only [withLinks, withTracking, setBlk, ne_eq, hcb, not_false_eq_true,
        Function.update_of_ne]
      exact h.held (i - 1) c k hc' hk
  · intro i c hc hi
    rw [List.length_cons] at hi
    obtain ⟨hc', hp⟩ := hshift hc (by omega)
    have hcb := hother hc' hp
    simp only [withLinks, withTracking, setBlk, ne_eq, hcb, not_false_eq_true,
      Function.update_of_ne]
    exact h.empty (i - 1) c hc' (by omega)
  · intro k c
    change Function.update s.tagHash key (some b) k = some c ↔ _
    by_cases hk : k = key
    · subst hk
      rw [Function.update_self]
      constructor
      · rintro hbc
        exact ⟨0, hbc, rfl⟩
      · rintro ⟨p, hc, hp⟩
        by_cases hp0 : p = 0
        · subst hp0
          exact hc
        · rw [List.getElem?_cons, if_neg hp0] at hp
          exact absurd (List.mem_of_getElem? hp) hkey
    · rw [Function.update_of_ne hk, h.hash k c]
      constructor
      · rintro ⟨p, hc, hp⟩
        have hlt := (List.getElem?_eq_some_iff.mp hp).1
        refine ⟨p + 1, ?_, hp⟩
        rw [DoublyLinked.getElem?_toFront, if_neg (Nat.succ_ne_zero p), if_pos (by omega)]
        exact hc
      · rintro ⟨p, hc, hp⟩
        by_cases hp0 : p = 0
        · subst hp0
          exact absurd (Option.some.inj hp).symm hk
        · rw [List.getElem?_cons, if_neg hp0] at hp
          exact ⟨p - 1, (hshift hc hp0).1, hp⟩

end Content

end FALRU

end Gem5.Mem
