/-
# The hit counters of the fully associative tags

`accessBlock` moves a block that hits to the head before it records the access, and a block at the
head is in every tracked cache.  So every counter counts the hits of the full cache: the counters of
the smaller caches are those of caches of their sizes only if no access has a stack distance
between the smallest tracked size and the size of the cache.
-/
import Gem5.FALRUContent
import Gem5.LruStack

namespace Gem5.Mem

open Runs

namespace FALRU

/-! ## One access -/

/-- The accesses between the two states hit as `bs` says. -/
def Counts (s t : FALRU) (bs : List Bool) : Prop :=
  ∀ i, i ≤ s.numTrackedCaches →
    t.hits i = s.hits i + bs.count true ∧ t.misses i = s.misses i + bs.count false

theorem Counts.nil (s : FALRU) : Counts s s [] := fun _ _ => ⟨rfl, rfl⟩

theorem Counts.append {s t u : FALRU} {bs cs : List Bool} (h : Counts s t bs)
    (h' : Counts t u cs) (hcaches : t.numTrackedCaches = s.numTrackedCaches) :
    Counts s u (bs ++ cs) := by
  intro i hi
  obtain ⟨h1, h2⟩ := h i hi
  obtain ⟨h3, h4⟩ := h' i (hcaches ▸ hi)
  rw [List.count_append, List.count_append]
  omega

theorem counts_recordAccess_none (s : FALRU) : Counts s (s.recordAccess none) [false] := by
  intro i hi
  simp [recordAccess, hi]

/-- A valid block at the front counts as a hit in every cache. -/
theorem counts_recordAccess_front {n : ℕ} {s : FALRU} {l : List ℕ} (h : Placed n s l) {b : ℕ}
    (hb : l[0]? = some b) (hvalid : (s.blks b).valid = true) :
    Counts s (s.recordAccess (some b)) [true] := by
  intro i hi
  by_cases hlt : i < s.numTrackedCaches
  · have hbit := (h.masked 0 b hb i).mpr ⟨hlt, h.sized.pos_pow i⟩
    have hne : (1#32 <<< i) &&& (s.blks b).inCachesMask ≠ 0 :=
      (Base.and_bit_ne_zero (lt_of_lt_of_le hlt h.sized.le)).mpr hbit
    simpa [recordAccess, hi, hlt] using hne
  · simp [recordAccess, hi, hlt, hvalid]

section Access

variable {s : FALRU} {l : List ℕ} {cache : List TagHashKey} {addr : ℕ} {isSecure : Bool}
  {key : TagHashKey}

/-- An access to a key that is held moves its block and records the access. -/
theorem Content.access_hit (h : Content s l cache) (hkey : (s.extractTag addr, isSecure) = key)
    {p b : ℕ} (hb : l[p]? = some b) (hp : cache[p]? = some key) {v : FALRU}
    (hmove : s.moveToHead b = .ok v) : s.access addr isSecure = .ok (v.recordAccess (some b)) := by
  obtain ⟨hvalid, htag⟩ := h.held p b key hb hp
  have hfind : s.findBlock key = .ok (some b) := by
    unfold findBlock
    rw [(h.hash key b).mpr ⟨p, hb, hp⟩]
    refine bind_eq_ok.mpr ⟨(), require_ok ?_, rfl⟩
    rw [htag, decide_eq_true rfl, Bool.or_true]
  have htouch : s.touch (some b) = .ok v := (if_pos hvalid).trans hmove
  unfold access
  rw [hkey]
  exact bind_eq_ok.mpr ⟨(some b, v.recordAccess (some b)),
    bind_eq_ok.mpr ⟨some b, hfind, bind_eq_ok.mpr ⟨v, htouch, rfl⟩⟩, rfl⟩

/-- An access to a key that is not held brings the block at the back to the head. -/
theorem Content.access_miss {n : ℕ} (h : Content s l cache) (hplaced : Placed n s l)
    (hkey : (s.extractTag addr, isSecure) = key) (hmiss : key ∉ cache) {b : ℕ}
    (hb : l[s.numBlocks - 1]? = some b) :
    ∃ u, SameOrder s u ∧ Counts s u [false] ∧
      s.access addr isSecure = (do
        let v ← u.moveToHead b
        return { v with tagHash := Function.update v.tagHash key (some b) }) ∧
      ∀ v, Moved u v → Content { v with tagHash := Function.update v.tagHash key (some b) }
        (b :: l.eraseIdx (s.numBlocks - 1)) (key :: cache.take (s.numBlocks - 1)) := by
  have hrecord : SameOrder s (s.recordAccess none) := ⟨rfl, rfl, rfl, rfl, rfl, rfl, rfl, rfl, rfl⟩
  have htail : s.tail = some b := hplaced.tail.trans hb
  have hcontent : Content (s.recordAccess none) l cache :=
    h.congr rfl (fun _ => rfl) (fun _ => rfl) rfl
  obtain ⟨t, hevict, hsame, hhits, hmisses, hinvalid, ht⟩ := hcontent.evict htail hb
  have hst := hrecord.trans hsame
  have hblocks : t.numBlocks = s.numBlocks := hst.numBlocks
  have hinsert := sameOrder_setBlk t b true key
  refine ⟨t.setBlk b { t.blks b with valid := true, tag := key }, hst.trans hinsert, ?_, ?_, ?_⟩
  · intro i hi
    have hcount := counts_recordAccess_none s i hi
    rw [← hhits, ← hmisses] at hcount
    exact hcount
  · have hfind : s.findBlock key = .ok none := by
      unfold findBlock
      rw [h.hash_eq_none hmiss]
    have haccess : s.accessBlock key = .ok (none, s.recordAccess none) :=
      bind_eq_ok.mpr ⟨none, hfind, bind_eq_ok.mpr ⟨s, rfl, rfl⟩⟩
    have hmask : (t.blks b).inCachesMask = 0 := (hplaced.congr hst).mask_back (hblocks.symm ▸ hb)
    unfold access
    rw [hkey, haccess]
    change (s.recordAccess none).replace key = _
    unfold replace
    rw [show (s.recordAccess none).tail = some b from htail]
    change ((s.recordAccess none).evict b >>= fun t => t.insertBlock key b) = _
    rw [hevict]
    change t.insertBlock key b = _
    unfold insertBlock
    rw [require_ok (decide_eq_true hmask), require_ok (by rw [hinvalid]; rfl)]
    rfl
  · intro v hv
    have hle : (cache.take (s.numBlocks - 1)).length ≤ t.numBlocks - 1 := by
      rw [hblocks]
      exact List.length_take_le _ _
    have hnew : key ∉ cache.take (s.numBlocks - 1) := fun hmem => hmiss (List.mem_of_mem_take hmem)
    have hcontent' := ht.insert hle (hblocks.symm ▸ hb) hnew hv
    rw [hblocks] at hcontent'
    exact hcontent'

end Access

/-! ## Runs of accesses -/

/-- The tracking stays right whatever is accessed: the smallest tracked cache has two blocks, or
there is no tracked cache, or there is only one block. -/
def Kept (n : ℕ) (s : FALRU) (l : List ℕ) : Prop :=
  Tidy n s l ∧ (2 ≤ n ∨ s.numTrackedCaches = 0) ∨ Placed n s l ∧ s.numBlocks = 1

section Kept

variable {n : ℕ} {s : FALRU} {l : List ℕ}

theorem Kept.placed (h : Kept n s l) : Placed n s l := by
  rcases h with h | h
  · exact h.1.placed
  · exact h.1

theorem Kept.congr (h : Kept n s l) {t : FALRU} (hst : SameOrder s t) : Kept n t l := by
  rcases h with ⟨htidy, hn⟩ | ⟨hplaced, hone⟩
  · exact .inl ⟨htidy.congr hst, hst.numTrackedCaches.symm ▸ hn⟩
  · exact .inr ⟨hplaced.congr hst, hst.numBlocks.trans hone⟩

theorem Kept.moveToHead (h : Kept n s l) {k x : ℕ} (hx : l[k]? = some x) :
    ∃ v, s.moveToHead x = .ok v ∧ Moved s v ∧ Kept n v (x :: l.eraseIdx k) := by
  rcases h with ⟨htidy, hn⟩ | ⟨hplaced, hone⟩
  · obtain ⟨v, hv, hmoved, htidy'⟩ := htidy.moveToHead hx (.inr hn)
    refine ⟨v, hv, hmoved, .inl ⟨htidy', ?_⟩⟩
    obtain ⟨_, _, _, _, _, _, rfl⟩ := hmoved
    exact hn
  · -- the only block is at the head
    have hk : k = 0 := by
      have := (List.getElem?_eq_some_iff.mp hx).1
      rw [hplaced.length, hone] at this
      omega
    subst hk
    refine ⟨s, moveToHead_head (hx.symm.trans hplaced.head.symm), Moved.refl s, .inr ⟨?_, hone⟩⟩
    rw [DoublyLinked.toFront_zero hx]
    exact hplaced

end Kept

/-- The key of an access. -/
def keyOf (blkSize : ℕ) (a : ℕ × Bool) : TagHashKey := (a.1 / blkSize * blkSize, a.2)

/-- One access, of an address and a security state. -/
def accessStep (s : FALRU) (a : ℕ × Bool) : Except FALRUFail FALRU := s.access a.1 a.2

/-- A hit, whatever becomes of the list. -/
theorem Content.hit_spec {n : ℕ} {s v : FALRU} {l : List ℕ} {cache : List TagHashKey}
    (h : Content s l cache) {a : ℕ × Bool} {p b : ℕ} (hb : l[p]? = some b)
    (hp : cache[p]? = some (keyOf s.blkSize a)) (hmove : s.moveToHead b = .ok v)
    (hmoved : Moved s v) (hplaced : Placed n v (b :: l.eraseIdx p)) :
    ∃ w, s.accessStep a = .ok w ∧ SameOrder v w ∧ Counts s w [true] ∧
      Content w (b :: l.eraseIdx p) (LruStack.access s.numBlocks cache (keyOf s.blkSize a)) := by
  have hcontent := h.toFront hmoved hb hp
  have hfront : (b :: l.eraseIdx p)[0]? = some b := rfl
  have hvalid := (hcontent.held 0 b _ hfront rfl).1
  have hcounts := counts_recordAccess_front hplaced hfront hvalid
  refine ⟨v.recordAccess (some b), h.access_hit rfl hb hp hmove,
    ⟨rfl, rfl, rfl, rfl, rfl, rfl, rfl, rfl, rfl⟩, ?_, ?_⟩
  · obtain ⟨_, _, _, _, _, _, rfl⟩ := hmoved
    exact hcounts
  · rw [LruStack.access_of_mem h.nodup h.le hp]
    exact hcontent.congr rfl (fun _ => rfl) (fun _ => rfl) rfl

/-- One access while the tracking stays right. -/
theorem Kept.access {n : ℕ} {s : FALRU} {l : List ℕ} {cache : List TagHashKey} (h : Kept n s l)
    (hcontent : Content s l cache) (hpos : 0 < s.numBlocks) (a : ℕ × Bool) :
    ∃ w l' hit, s.accessStep a = .ok w ∧ Kept n w l' ∧
      Content w l' (LruStack.access s.numBlocks cache (keyOf s.blkSize a)) ∧
      (hit = true ↔ keyOf s.blkSize a ∈ cache) ∧ Counts s w [hit] ∧ w.blkSize = s.blkSize ∧
      w.numBlocks = s.numBlocks ∧ w.numTrackedCaches = s.numTrackedCaches := by
  by_cases hmem : keyOf s.blkSize a ∈ cache
  · obtain ⟨p, hp⟩ := List.mem_iff_getElem?.mp hmem
    obtain ⟨b, hb⟩ : ∃ b, l[p]? = some b := by
      have hlt := (List.getElem?_eq_some_iff.mp hp).1
      have hle := hcontent.le
      exact ⟨_, List.getElem?_eq_getElem (by rw [hcontent.length]; omega)⟩
    obtain ⟨v, hmove, hmoved, hkept⟩ := h.moveToHead hb
    obtain ⟨w, haccess, hsame, hcounts, hcontent'⟩ :=
      hcontent.hit_spec hb hp hmove hmoved hkept.placed
    refine ⟨w, _, true, haccess, hkept.congr hsame, hcontent', iff_of_true rfl hmem, hcounts, ?_⟩
    obtain ⟨_, _, _, _, _, _, rfl⟩ := hmoved
    exact ⟨hsame.blkSize, hsame.numBlocks, hsame.numTrackedCaches⟩
  · obtain ⟨b, hb⟩ : ∃ b, l[s.numBlocks - 1]? = some b :=
      ⟨_, List.getElem?_eq_getElem (by rw [hcontent.length]; omega)⟩
    obtain ⟨u, hsame, hcounts, haccess, hnew⟩ := hcontent.access_miss h.placed rfl hmem hb
    obtain ⟨v, hmove, hmoved, hkept⟩ := (h.congr hsame).moveToHead hb
    have hw : SameOrder v { v with
        tagHash := Function.update v.tagHash (keyOf s.blkSize a) (some b) } :=
      ⟨rfl, rfl, rfl, rfl, rfl, rfl, rfl, rfl, rfl⟩
    rw [LruStack.access_of_not_mem hpos hmem]
    refine ⟨_, _, false, haccess.trans (bind_eq_ok.mpr ⟨v, hmove, rfl⟩), hkept.congr hw,
      hnew v hmoved, iff_of_false nofun hmem, ?_⟩
    obtain ⟨_, _, _, _, _, _, rfl⟩ := hmoved
    exact ⟨hcounts, hsame.blkSize, hsame.numBlocks, hsame.numTrackedCaches⟩

/-- **Counting.**  While the tracking stays right, every counter counts the hits and the misses of
the full cache. -/
theorem Kept.run {n : ℕ} (accesses : List (ℕ × Bool)) :
    ∀ {s : FALRU} {l : List ℕ} {cache : List TagHashKey}, Kept n s l → Content s l cache →
      0 < s.numBlocks → ∃ t, Runs.run accessStep s accesses = .ok t ∧
        t.numTrackedCaches = s.numTrackedCaches ∧
        Counts s t (LruStack.outcomes s.numBlocks cache (accesses.map (keyOf s.blkSize))) := by
  induction accesses with
  | nil => exact fun _ _ _ => ⟨_, rfl, rfl, Counts.nil _⟩
  | cons a accesses ih =>
    intro s l cache h hcontent hpos
    obtain ⟨w, l', hit, hstep, hkept, hcontent', hhit, hcounts, hblk, hblocks, hcaches⟩ :=
      h.access hcontent hpos a
    obtain ⟨t, hrun, hcaches', hrest⟩ := ih hkept hcontent' (hblocks.symm ▸ hpos)
    refine ⟨t, (run_cons_ok accesses hstep).trans hrun, hcaches'.trans hcaches, ?_⟩
    rw [hblk, hblocks] at hrest
    rw [List.map_cons, LruStack.outcomes_cons hhit]
    exact hcounts.append hrest hcaches

/-! ## A tracked cache of one block -/

/-- The boundary of the smallest tracked cache, of one block, is lost. -/
structure Stuck (s : FALRU) (l : List ℕ) : Prop where
  placed : Placed 1 s l
  boundary : s.boundaries 0 = none
  caches : 0 < s.numTrackedCaches

section Stuck

variable {s : FALRU} {l : List ℕ}

theorem Stuck.congr (h : Stuck s l) {t : FALRU} (hst : SameOrder s t) : Stuck t l where
  placed := h.placed.congr hst
  boundary := by
    rw [hst.boundaries]
    exact h.boundary
  caches := by
    rw [hst.numTrackedCaches]
    exact h.caches

theorem Stuck.one_lt (h : Stuck s l) : 1 < s.numBlocks := h.placed.sized.lt 0 h.caches

/-- A move of another block than the head follows the null boundary. -/
theorem Stuck.moveToHead (h : Stuck s l) {k x : ℕ} (hx : l[k]? = some x) (hk : 0 < k) :
    s.moveToHead x = .error .nullDereference := by
  have hhead : ¬ some x = s.head := by
    rw [h.placed.head]
    intro hx0
    have hnodup : l.Nodup := h.placed.perm.nodup_iff.mpr List.nodup_range
    have := (List.getElem?_inj (List.getElem?_eq_some_iff.mp hx).1 hnodup).mp (hx.trans hx0)
    omega
  have hbit : (s.blks x).inCachesMask.getLsbD 0 = false := by
    rw [← Bool.not_eq_true]
    intro hset
    have := ((h.placed.masked k x hx 0).mp hset).2
    omega
  have hin := (getLsbD_inAllCachesMask h.placed.sized.le 0).mpr h.caches
  have hupdate : (1#32 <<< 0) &&& (s.inAllCachesMask ^^^ (s.blks x).inCachesMask) ≠ 0 := by
    rw [Base.and_bit_ne_zero (by decide), BitVec.getLsbD_xor, hin, hbit]
    rfl
  have hstep : s.toHeadStep x (s.inAllCachesMask ^^^ (s.blks x).inCachesMask) 0 =
      .error .nullDereference := by
    unfold toHeadStep
    rw [if_pos hupdate, h.boundary]
    rfl
  obtain ⟨caches, hcaches⟩ := Nat.exists_eq_succ_of_ne_zero h.caches.ne'
  unfold FALRU.moveToHead moveBlockToHead
  rw [if_neg hhead, hcaches, List.range_succ_eq_map]
  change ((s.toHeadStep x _ 0 >>= _) >>= _) >>= _ = _
  rw [hstep]
  rfl

/-- One access after the first: the same key again hits, another key follows the null boundary. -/
theorem Stuck.access (h : Stuck s l) {key : TagHashKey} (hcontent : Content s l [key])
    (a : ℕ × Bool) :
    if keyOf s.blkSize a = key then
      ∃ w, s.accessStep a = .ok w ∧ Stuck w l ∧
        Content w l (LruStack.access s.numBlocks [key] key) ∧ Counts s w [true] ∧
        w.blkSize = s.blkSize ∧ w.numBlocks = s.numBlocks ∧
        w.numTrackedCaches = s.numTrackedCaches
    else s.accessStep a = .error .nullDereference := by
  have hone := h.one_lt
  by_cases hkey : keyOf s.blkSize a = key
  · rw [if_pos hkey]
    obtain ⟨b, hb⟩ : ∃ b, l[0]? = some b :=
      ⟨_, List.getElem?_eq_getElem (by rw [hcontent.length]; omega)⟩
    have hfront := DoublyLinked.toFront_zero hb
    have hplaced : Placed 1 s (b :: l.eraseIdx 0) := by
      rw [hfront]
      exact h.placed
    obtain ⟨w, haccess, hsame, hcounts, hcontent'⟩ := hcontent.hit_spec (a := a) hb
      (congrArg some hkey.symm) (moveToHead_head (hb.symm.trans h.placed.head.symm)) (Moved.refl s)
      hplaced
    rw [hfront, hkey] at hcontent'
    exact ⟨w, haccess, h.congr hsame, hcontent', hcounts, hsame.blkSize, hsame.numBlocks,
      hsame.numTrackedCaches⟩
  · rw [if_neg hkey]
    obtain ⟨b, hb⟩ : ∃ b, l[s.numBlocks - 1]? = some b :=
      ⟨_, List.getElem?_eq_getElem (by rw [hcontent.length]; omega)⟩
    obtain ⟨u, hsame, _, haccess, _⟩ :=
      hcontent.access_miss h.placed rfl (List.mem_singleton.not.mpr hkey) hb
    refine haccess.trans ?_
    rw [(h.congr hsame).moveToHead hb (by omega)]
    rfl

/-- After the first access, the run goes on exactly as long as the key stays the same. -/
theorem Stuck.run {key : TagHashKey} (accesses : List (ℕ × Bool)) :
    ∀ {s : FALRU}, Stuck s l → Content s l [key] →
      if ∀ a ∈ accesses, keyOf s.blkSize a = key then
        ∃ t, Runs.run accessStep s accesses = .ok t ∧
          t.numTrackedCaches = s.numTrackedCaches ∧
          Counts s t (LruStack.outcomes s.numBlocks [key] (accesses.map (keyOf s.blkSize)))
      else Runs.run accessStep s accesses = .error .nullDereference := by
  induction accesses with
  | nil =>
    intro s _ _
    rw [if_pos fun _ h => absurd h List.not_mem_nil]
    exact ⟨s, rfl, rfl, Counts.nil s⟩
  | cons a accesses ih =>
    intro s h hcontent
    have hfirst := h.access hcontent a
    by_cases hkey : keyOf s.blkSize a = key
    · rw [if_pos hkey] at hfirst
      obtain ⟨w, hstep, hstuck, hcontent', hcounts, hblk, hblocks, hcaches⟩ := hfirst
      have hone := h.one_lt
      have hagain : LruStack.access s.numBlocks [key] key = [key] :=
        LruStack.access_of_mem (p := 0) (List.nodup_singleton key) hone.le rfl
      rw [hagain] at hcontent'
      have hrest := ih hstuck hcontent'
      rw [hblk, hblocks] at hrest
      rw [run_cons_ok accesses hstep]
      simp only [List.forall_mem_cons, hkey, true_and]
      by_cases hall : ∀ a ∈ accesses, keyOf s.blkSize a = key
      · rw [if_pos hall] at hrest ⊢
        obtain ⟨t, hrun, hcaches', hcounts'⟩ := hrest
        refine ⟨t, hrun, hcaches'.trans hcaches, ?_⟩
        rw [List.map_cons, hkey,
          LruStack.outcomes_cons (iff_of_true rfl (List.mem_singleton_self key)), hagain]
        exact hcounts.append hcounts' hcaches
      · rw [if_neg hall] at hrest ⊢
        exact hrest
    · rw [if_neg hkey] at hfirst
      rw [if_neg fun hall => hkey (hall a List.mem_cons_self), run_cons_error accesses hfirst]

end Stuck

/-- All accesses have one key. -/
def OneKey (keys : List TagHashKey) : Prop := ∀ k ∈ keys, ∀ k' ∈ keys, k = k'

instance (keys : List TagHashKey) : Decidable (OneKey keys) :=
  inferInstanceAs (Decidable (∀ k ∈ keys, ∀ k' ∈ keys, k = k'))

theorem oneKey_cons {key : TagHashKey} {keys : List TagHashKey} :
    OneKey (key :: keys) ↔ ∀ k ∈ keys, k = key := by
  constructor
  · intro h k hk
    exact h k (List.mem_cons_of_mem key hk) key List.mem_cons_self
  · intro h k hk k' hk'
    have hall : ∀ k ∈ key :: keys, k = key := List.forall_mem_cons.mpr ⟨rfl, h⟩
    rw [hall k hk, hall k' hk']

/-- Runs from a cache whose smallest tracked cache has one block. -/
theorem Tidy.run_one {s : FALRU} {l : List ℕ} (h : Tidy 1 s l) (hcontent : Content s l [])
    (hcaches : 0 < s.numTrackedCaches) (accesses : List (ℕ × Bool)) :
    if OneKey (accesses.map (keyOf s.blkSize)) then
      ∃ t, Runs.run accessStep s accesses = .ok t ∧ t.numTrackedCaches = s.numTrackedCaches ∧
        Counts s t (LruStack.outcomes s.numBlocks [] (accesses.map (keyOf s.blkSize)))
    else Runs.run accessStep s accesses = .error .nullDereference := by
  have hone : 1 < s.numBlocks := h.sized.lt 0 hcaches
  cases accesses with
  | nil =>
    have hnil : OneKey (([] : List (ℕ × Bool)).map (keyOf s.blkSize)) :=
      fun _ hk => absurd hk List.not_mem_nil
    rw [if_pos hnil]
    exact ⟨s, rfl, rfl, Counts.nil s⟩
  | cons a accesses =>
    obtain ⟨b, hb⟩ : ∃ b, l[s.numBlocks - 1]? = some b :=
      ⟨_, List.getElem?_eq_getElem (by rw [hcontent.length]; omega)⟩
    have hkey : (s.extractTag a.1, a.2) = keyOf s.blkSize a := rfl
    obtain ⟨u, hsame, hcounts, haccess, hnew⟩ :=
      hcontent.access_miss h.placed hkey List.not_mem_nil hb
    obtain ⟨v, hmove, hmoved, hlinks, hlost, hmask⟩ := (h.congr hsame).boundary_lost hb
      (by omega) (hsame.numTrackedCaches.symm ▸ hcaches)
    have hstep : s.accessStep a = .ok { v with
        tagHash := Function.update v.tagHash (keyOf s.blkSize a) (some b) } :=
      haccess.trans (bind_eq_ok.mpr ⟨v, hmove, rfl⟩)
    have hcontent' := hnew v hmoved
    have hperm := hcontent'.perm
    have hlength := hcontent'.length
    rw [List.take_nil] at hcontent'
    obtain ⟨_, _, _, _, _, _, rfl⟩ := hmoved
    -- the first access loses the boundary
    have hstuck : Stuck _ (b :: l.eraseIdx (s.numBlocks - 1)) :=
      ⟨⟨hperm, hlinks.head, hlength ▸ hlinks.tail, hmask, (h.congr hsame).sized⟩, hlost,
        hsame.numTrackedCaches.symm ▸ hcaches⟩
    have hrest := hstuck.run accesses hcontent'
    have hblk : u.blkSize = s.blkSize := hsame.blkSize
    have hblocks : u.numBlocks = s.numBlocks := hsame.numBlocks
    have hkeys : OneKey ((a :: accesses).map (keyOf s.blkSize)) ↔
        ∀ a' ∈ accesses, keyOf u.blkSize a' = keyOf s.blkSize a := by
      rw [List.map_cons, oneKey_cons, List.forall_mem_map, hblk]
    rw [run_cons_ok accesses hstep]
    by_cases hall : ∀ a' ∈ accesses, keyOf u.blkSize a' = keyOf s.blkSize a
    · obtain ⟨t, hrun, hcaches', hcounts'⟩ := (if_pos hall).mp hrest
      rw [if_pos (hkeys.mpr hall)]
      refine ⟨t, hrun, hcaches'.trans hsame.numTrackedCaches, ?_⟩
      have hmiss : (false = true) ↔ keyOf s.blkSize a ∈ ([] : List TagHashKey) :=
        iff_of_false nofun List.not_mem_nil
      rw [List.map_cons, LruStack.outcomes_cons hmiss,
        LruStack.access_of_not_mem (by omega) List.not_mem_nil, List.take_nil]
      have hcounts'' : Counts u t (LruStack.outcomes u.numBlocks [keyOf s.blkSize a]
          (accesses.map (keyOf u.blkSize))) := hcounts'
      rw [hblk, hblocks] at hcounts''
      exact hcounts.append hcounts'' hsame.numTrackedCaches
    · rw [if_neg fun hone => hall (hkeys.mp hone)]
      exact (if_neg hall).mp hrest

/-! ## All runs -/

/-- The blocks of the constructor are empty. -/
theorem content_init {s : FALRU} {l : List ℕ} (hperm : l.Perm (List.range s.numBlocks))
    (hblks : ∀ b, (s.blks b).valid = false) (hhash : ∀ key, s.tagHash key = none) :
    Content s l [] where
  perm := hperm
  nodup := List.nodup_nil
  le := Nat.zero_le _
  held := fun _ _ _ _ h => nomatch h
  empty := fun _ b _ _ => hblks b
  hash := by
    intro key b
    rw [hhash]
    refine iff_of_false nofun ?_
    rintro ⟨p, _, h⟩
    cases h

theorem valid_tagsInitBlk (numBlocks b : ℕ) : (tagsInitBlk numBlocks b).valid = false := by
  unfold tagsInitBlk
  split_ifs <;> rfl

/-- The constructor for a cache of one block. -/
theorem init_one {b m : ℕ} (hbm : b ≤ m) :
    init (2 ^ b) (2 ^ b) (2 ^ m) = .ok (tagsInit (2 ^ b) (2 ^ m) 1 0) := by
  unfold init
  have hblocks : 2 ^ b / 2 ^ b = 1 := Nat.div_self (Nat.two_pow_pos b)
  rw [trackedCaches_two_pow, hblocks, show b - m = 0 by omega, require_ok (isPowerOf2_two_pow b),
    require_ok (isPowerOf2_two_pow b)]
  rfl

theorem kept_one {b m n : ℕ} (hn : 0 < n) : Kept n (tagsInit (2 ^ b) (2 ^ m) 1 0) [0] := by
  refine .inr ⟨⟨List.Perm.refl _, rfl, rfl, ?_, ⟨hn, Nat.zero_le _, fun i hi => ?_⟩⟩, rfl⟩
  · intro p c hc i
    have hmask : (tagsInitBlk 1 c).inCachesMask = 0#32 := by
      unfold tagsInitBlk
      split_ifs <;> rfl
    change (tagsInitBlk 1 c).inCachesMask.getLsbD i = true ↔ i < 0 ∧ _
    rw [hmask, BitVec.getLsbD_zero]
    simp
  · exact absurd hi (Nat.not_lt_zero i)

/-- The counters of `caches` tracked caches and of the full cache of `numBlocks` blocks are those
of caches of their sizes; the smallest has `n` blocks. -/
def Exact (n caches : ℕ) (s : FALRU) (keys : List TagHashKey) : Prop :=
  ∀ i, i ≤ caches → s.hits i = LruStack.hits (n * 2 ^ i) keys ∧
    s.misses i = LruStack.misses (n * 2 ^ i) keys

/-- All runs from the constructor: the counters are those of the full cache, or the run stops at a
lost boundary. -/
theorem run_spec {b m sz : ℕ} (hbm : b ≤ m) (hbs : b ≤ sz) (hsz : sz < 32)
    (accesses : List (ℕ × Bool)) :
    ∃ s₀, init (2 ^ b) (2 ^ sz) (2 ^ m) = .ok s₀ ∧
      if m = b → m < sz → OneKey (accesses.map (keyOf (2 ^ b))) then
        ∃ s, run accessStep s₀ accesses = .ok s ∧ s.numTrackedCaches = sz - m ∧
          ∀ i, i ≤ sz - m →
            s.hits i = LruStack.hits (2 ^ (sz - b)) (accesses.map (keyOf (2 ^ b))) ∧
            s.misses i = LruStack.misses (2 ^ (sz - b)) (accesses.map (keyOf (2 ^ b)))
      else run accessStep s₀ accesses = .error .nullDereference := by
  -- counters that start at zero are the counts of the outcomes
  have hfinish : ∀ s₀ : FALRU, s₀.blkSize = 2 ^ b → s₀.numBlocks = 2 ^ (sz - b) →
      s₀.numTrackedCaches = sz - m → (∀ i, s₀.hits i = 0 ∧ s₀.misses i = 0) →
      (∃ t, Runs.run accessStep s₀ accesses = .ok t ∧
        t.numTrackedCaches = s₀.numTrackedCaches ∧ Counts s₀ t
          (LruStack.outcomes s₀.numBlocks [] (accesses.map (keyOf s₀.blkSize)))) →
      ∃ s, run accessStep s₀ accesses = .ok s ∧ s.numTrackedCaches = sz - m ∧
        ∀ i, i ≤ sz - m →
          s.hits i = LruStack.hits (2 ^ (sz - b)) (accesses.map (keyOf (2 ^ b))) ∧
          s.misses i = LruStack.misses (2 ^ (sz - b)) (accesses.map (keyOf (2 ^ b))) := by
    rintro s₀ hblk hblocks hcaches hzero ⟨t, hrun, hcaches', hcounts⟩
    refine ⟨t, hrun, hcaches'.trans hcaches, fun i hi => ?_⟩
    obtain ⟨h1, h2⟩ := hcounts i (hcaches ▸ hi)
    rw [hblk, hblocks, (hzero i).1, Nat.zero_add] at h1
    rw [hblk, hblocks, (hzero i).2, Nat.zero_add] at h2
    exact ⟨h1, h2⟩
  by_cases hone : sz = b
  · subst hone
    refine ⟨_, init_one hbm, ?_⟩
    rw [if_pos fun hmb hlt => absurd hlt (by omega)]
    refine hfinish _ rfl ?_ ?_ (fun _ => ⟨rfl, rfl⟩) ?_
    · rw [Nat.sub_self]
      rfl
    · change 0 = sz - m
      omega
    · exact (kept_one Nat.one_pos).run accesses
        (content_init (List.Perm.refl _) (valid_tagsInitBlk 1) fun _ => rfl) Nat.one_pos
  · obtain ⟨mask, boundaries, hinit, htidy⟩ := init_spec hbm (by omega : b < sz) hsz
    refine ⟨_, hinit, ?_⟩
    have hcontent := content_init htidy.perm (fun c => valid_tagsInitBlk (2 ^ (sz - b)) c)
      fun _ => rfl
    by_cases hsmall : m = b ∧ m < sz
    · obtain ⟨rfl, hlt⟩ := hsmall
      rw [Nat.sub_self, Nat.pow_zero] at htidy
      have hruns := htidy.run_one hcontent (by change 0 < sz - m; omega) accesses
      by_cases hkeys : OneKey (accesses.map (keyOf (2 ^ m)))
      · rw [if_pos fun _ _ => hkeys]
        exact hfinish _ rfl rfl rfl (fun _ => ⟨rfl, rfl⟩) ((if_pos hkeys).mp hruns)
      · rw [if_neg fun h => hkeys (h rfl hlt)]
        exact (if_neg hkeys).mp hruns
    · rw [if_pos fun hmb hlt => absurd ⟨hmb, hlt⟩ hsmall]
      refine hfinish _ rfl rfl rfl (fun _ => ⟨rfl, rfl⟩) ?_
      have hn : 2 ≤ 2 ^ (m - b) ∨ sz - m = 0 := by
        by_cases hmb : m = b
        · right
          omega
        · left
          exact Nat.le_self_pow (by omega) 2
      exact Kept.run accesses (.inl ⟨htidy, hn⟩) hcontent (Nat.two_pow_pos _)

end FALRU

end Gem5.Mem
