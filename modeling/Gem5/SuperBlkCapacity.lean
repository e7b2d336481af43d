/-
# The capacity of a superblock

Every block that shares a superblock is promised the block size divided by the compression factor.
The factor is derived from the size of the first block by rounding the number of blocks that fit up
to a power of two, so it promises too much for sizes like 150 of 512 bits.  In every run in which
the sizes that set the factor fit in their share, the valid blocks are at most as many as the
factor and fit in one block together.
-/
import Gem5.SuperBlk

namespace Gem5.Mem

open Runs

namespace SuperBlk

/-! ## The factor of a size -/

/-- A size fits in its share: it is at least that of an uncompressed block; or the number of blocks
of this size is a power of two, or as many as there are fit, and the factor fits in a byte. -/
def Fits (s : SuperBlk) (size : ℕ) : Prop :=
  s.blkSizeBits ≤ size ∨
    (s.blks.length * size ≤ s.blkSizeBits ∨
      2 ^ Nat.log2 (s.blkSizeBits / size) = s.blkSizeBits / size) ∧
    (s.blks.length < 2 ^ 8 ∨ 0 < size ∧ s.blkSizeBits / size ≤ 128)

instance (s : SuperBlk) (size : ℕ) : Decidable (s.Fits size) :=
  inferInstanceAs (Decidable (_ ∨ _))

/-- The sizes that `SectorTags` accepts; `blkSize` is an `unsigned`. -/
structure Sane (s : SuperBlk) : Prop where
  blkSize : ∃ a, s.blkSize = 2 ^ a ∧ a < 32
  blks : ∃ c, s.blks.length = 2 ^ c

theorem Sane.blkSizeBits {s : SuperBlk} (hs : s.Sane) :
    ∃ a, s.blkSizeBits = 2 ^ a ∧ s.blkSizeBits < 2 ^ 35 := by
  obtain ⟨a, ha, hlt⟩ := hs.blkSize
  have hbits : s.blkSizeBits = 2 ^ (a + 3) := by
    unfold SuperBlk.blkSizeBits CHAR_BIT
    rw [ha, Nat.pow_add]
    omega
  refine ⟨a + 3, hbits, ?_⟩
  rw [hbits]
  exact Nat.pow_lt_pow_right (by decide) (by omega)

/-- The factor before it becomes a byte. -/
theorem calculateCompressionFactor_eq {s : SuperBlk} (hs : s.Sane) {size : ℕ}
    (hle : size ≤ s.blkSizeBits) (hpos : 0 < size) :
    ∃ k, s.calculateCompressionFactor size = min (2 ^ k) s.blks.length % 2 ^ 8 ∧
      s.blkSizeBits / size ≤ 2 ^ k ∧ 2 ^ k < 2 * (s.blkSizeBits / size) := by
  obtain ⟨_, _, hbits⟩ := hs.blkSizeBits
  have hq : s.blkSizeBits / size ≤ s.blkSizeBits := Nat.div_le_self _ _
  have hq1 : 1 ≤ s.blkSizeBits / size := (Nat.one_le_div_iff hpos).mpr hle
  have hnat : (BitVec.ofNat 64 (s.blkSizeBits / size)).toNat = s.blkSizeBits / size := by
    rw [BitVec.toNat_ofNat, Nat.mod_eq_of_lt (by omega)]
  have hpos : 1 ≤ (BitVec.ofNat 64 (s.blkSizeBits / size)).toNat := by omega
  have hle : (BitVec.ofNat 64 (s.blkSizeBits / size)).toNat ≤ 2 ^ 63 := by omega
  obtain ⟨k, hk, hge, hlt⟩ := Base.toNat_alignToPowerOfTwo hpos hle
  rw [hnat] at hge hlt
  refine ⟨k, ?_, hge, hlt⟩
  unfold calculateCompressionFactor
  rw [if_neg (by omega), if_neg (by omega), hk]

theorem calculateCompressionFactor_of_lt {s : SuperBlk} (hs : s.Sane) {size : ℕ}
    (hlt : s.blkSizeBits < size) : s.calculateCompressionFactor size = 1 := by
  obtain ⟨c, hc⟩ := hs.blks
  have hpos := Nat.two_pow_pos c
  unfold calculateCompressionFactor
  rw [if_pos hlt, hc]
  change min 1 (2 ^ c) % 2 ^ 8 = 1
  rw [min_eq_left hpos]
  rfl

theorem min_two_pow (a c : ℕ) : min (2 ^ a) (2 ^ c) = 2 ^ min a c := by
  rcases Nat.le_total a c with h | h
  · rw [min_eq_left h, min_eq_left (Nat.pow_le_pow_right (by decide) h)]
  · rw [min_eq_right h, min_eq_right (Nat.pow_le_pow_right (by decide) h)]

/-- A size that fits gets a power of two as its factor, and its share holds it. -/
theorem Fits.factor {s : SuperBlk} (hs : s.Sane) {size : ℕ} (h : s.Fits size) :
    ∃ j, s.calculateCompressionFactor size = 2 ^ j ∧ 2 ^ j < 2 ^ 8 ∧
      2 ^ j * min size s.blkSizeBits ≤ s.blkSizeBits := by
  obtain ⟨a, ha, _⟩ := hs.blkSizeBits
  obtain ⟨c, hc⟩ := hs.blks
  have hbits := Nat.two_pow_pos a
  rcases Nat.lt_trichotomy size s.blkSizeBits with hlt | heq | hgt
  · have hfit := h.resolve_left (by omega)
    by_cases hzero : size = 0
    · subst hzero
      have hcount : min (2 ^ a) s.blks.length < 2 ^ 8 := by omega
      refine ⟨min a c, ?_, ?_, ?_⟩
      · unfold calculateCompressionFactor
        rw [if_neg (by omega), if_pos rfl, ha, Nat.mod_eq_of_lt hcount, hc, min_two_pow]
      · rwa [← min_two_pow, ← hc]
      · rw [Nat.zero_min, Nat.mul_zero]
        exact Nat.zero_le _
    · obtain ⟨k, hfactor, hge, hlt'⟩ := calculateCompressionFactor_eq hs hlt.le (by omega)
      have hbyte : min (2 ^ k) s.blks.length < 2 ^ 8 := by omega
      refine ⟨min k c, ?_, ?_, ?_⟩
      · rw [hfactor, Nat.mod_eq_of_lt hbyte, hc, min_two_pow]
      · rwa [← min_two_pow, ← hc]
      rw [← min_two_pow, ← hc, min_eq_left hlt.le]
      rcases hfit.1 with hall | htwo
      · exact (Nat.mul_le_mul_right size (min_le_right _ _)).trans hall
      · -- rounding up changes nothing
        have hk : k = Nat.log2 (s.blkSizeBits / size) := by
          rw [← htwo] at hge hlt'
          rw [← Nat.pow_succ'] at hlt'
          have h1 := (Nat.pow_le_pow_iff_right (by decide)).mp hge
          have h2 := (Nat.pow_lt_pow_iff_right (by decide)).mp hlt'
          omega
        rw [hk, htwo]
        exact (Nat.mul_le_mul_right size (min_le_left _ _)).trans (Nat.div_mul_le_self _ _)
  · obtain ⟨k, hfactor, hge, hlt'⟩ := calculateCompressionFactor_eq hs heq.le (by omega)
    have hself : s.blkSizeBits / size = 1 := heq ▸ Nat.div_self (by omega)
    have hone : 2 ^ k = 1 := by omega
    have hpos := Nat.two_pow_pos c
    refine ⟨0, ?_, by decide, ?_⟩
    · rw [hfactor, hone, hc, min_eq_left hpos]
      rfl
    · rw [Nat.pow_zero, Nat.one_mul]
      exact min_le_right _ _
  · refine ⟨0, calculateCompressionFactor_of_lt hs hgt, by decide, ?_⟩
    rw [Nat.pow_zero, Nat.one_mul]
    exact min_le_right _ _

/-- Where the factor of a size is larger than a power of two, the size fits in the share of that
power: the next smaller power is not rounded up. -/
theorem share_of_growth {s : SuperBlk} (hs : s.Sane) {size j : ℕ}
    (hlt : 2 ^ j < s.calculateCompressionFactor size) :
    2 ^ j * min size s.blkSizeBits ≤ s.blkSizeBits := by
  by_cases hgt : s.blkSizeBits < size
  · rw [calculateCompressionFactor_of_lt hs hgt] at hlt
    have := Nat.two_pow_pos j
    omega
  by_cases hzero : size = 0
  · rw [hzero, Nat.zero_min, Nat.mul_zero]
    exact Nat.zero_le _
  obtain ⟨k, hfactor, _, hround⟩ := calculateCompressionFactor_eq hs (by omega) (by omega : 0 < size)
  have hmod := Nat.mod_le (min (2 ^ k) s.blks.length) (2 ^ 8)
  have hjk : 2 ^ j < 2 ^ k := by omega
  have hlog := (Nat.pow_lt_pow_iff_right (by decide)).mp hjk
  have hhalf : 2 * 2 ^ j ≤ 2 ^ k := by
    rw [← Nat.pow_succ']
    exact Nat.pow_le_pow_right (by decide) hlog
  rw [min_eq_left (by omega)]
  exact (Nat.mul_le_mul_right size (by omega : 2 ^ j ≤ s.blkSizeBits / size)).trans
    (Nat.div_mul_le_self _ _)

/-! ## The invariant -/

/-- The counter counts the valid blocks, there are no more of them than the factor says, and each
fits in its share. -/
structure Inv (s : SuperBlk) : Prop where
  counter : s.validCounter = s.blks.countP (·.valid)
  le : s.validCounter ≤ s.compressionFactor
  rounded : ∃ j, s.compressionFactor = 2 ^ j
  factor_lt : s.compressionFactor < 2 ^ 8
  empty : s.validCounter = 0 → s.compressionFactor = 1
  share : ∀ (i : ℕ) b, s.blks[i]? = some b → b.valid = true →
    s.compressionFactor * min b.size s.blkSizeBits ≤ s.blkSizeBits

/-- The size and the number of the blocks, which never change. -/
structure SameShape (s t : SuperBlk) : Prop where
  blkSize : t.blkSize = s.blkSize
  length : t.blks.length = s.blks.length

theorem SameShape.refl (s : SuperBlk) : SameShape s s := ⟨rfl, rfl⟩

theorem SameShape.trans {s t u : SuperBlk} (h : SameShape s t) (h' : SameShape t u) :
    SameShape s u :=
  ⟨h'.blkSize.trans h.blkSize, h'.length.trans h.length⟩

theorem SameShape.blkSizeBits {s t : SuperBlk} (h : SameShape s t) :
    t.blkSizeBits = s.blkSizeBits := by
  unfold SuperBlk.blkSizeBits
  rw [h.blkSize]

theorem SameShape.sane {s t : SuperBlk} (h : SameShape s t) (hs : s.Sane) : t.Sane := by
  refine ⟨?_, ?_⟩
  · rw [h.blkSize]
    exact hs.blkSize
  · rw [h.length]
    exact hs.blks

theorem SameShape.fits {s t : SuperBlk} (h : SameShape s t) (size : ℕ) :
    t.Fits size ↔ s.Fits size := by
  unfold Fits
  rw [h.blkSizeBits, h.length]

/-- The number of valid blocks when one block is replaced. -/
theorem countP_set_valid {l : List CompressionBlk} {i : ℕ} {b c : CompressionBlk}
    (hb : l[i]? = some b) : (l.set i c).countP (·.valid) + (if b.valid = true then 1 else 0) =
      l.countP (·.valid) + (if c.valid = true then 1 else 0) := by
  obtain ⟨hi, rfl⟩ := List.getElem?_eq_some_iff.mp hb
  have hle : l[i].valid = true → 1 ≤ l.countP (·.valid) := fun hv =>
    List.countP_pos_iff.mpr ⟨l[i], List.getElem_mem hi, hv⟩
  rw [List.countP_set hi]
  by_cases hv : l[i].valid = true
  · have := hle hv
    simp only [hv, if_true]
    omega
  · simp only [hv, Bool.false_eq_true, if_false]
    omega

/-- If there is one valid block, the others are not valid. -/
theorem invalid_of_countP_one {l : List CompressionBlk} {i j : ℕ} {b c : CompressionBlk}
    (hone : l.countP (·.valid) = 1) (hb : l[i]? = some b) (hv : b.valid = true)
    (hc : l[j]? = some c) (hij : j ≠ i) : c.valid = false := by
  have hset := countP_set_valid (c := { b with valid := false }) hb
  rw [hone, if_pos hv, if_neg Bool.false_ne_true] at hset
  have hzero : (l.set i { b with valid := false }).countP (·.valid) = 0 := by omega
  have hmem : c ∈ l.set i { b with valid := false } := by
    apply List.mem_of_getElem? (i := j)
    rw [List.getElem?_set_ne hij.symm]
    exact hc
  exact Bool.eq_false_of_not_eq_true (List.countP_eq_zero.mp hzero c hmem)

/-! ## The operations -/

section Operations

variable {s t : SuperBlk} {offset size : ℕ}

/-- What `setSizeBits` does. -/
theorem setSizeBits_spec (h : s.setSizeBits offset size = .ok t) :
    ∃ b compressed, s.blks[offset]? = some b ∧ SameShape s t ∧
      t.blks = s.blks.set offset { b with size := size, compressed := compressed } ∧
      t.validCounter = s.validCounter ∧ 1 ≤ s.validCounter ∧
      t.compressionFactor =
        if s.validCounter ≤ 1 then s.calculateCompressionFactor size else s.compressionFactor := by
  obtain ⟨b, hb, h⟩ := bind_eq_ok.mp h
  rw [orFail_eq_ok] at hb
  obtain ⟨_, hone, h⟩ := bind_eq_ok.mp h
  rw [require_eq_ok, decide_eq_true_eq] at hone
  obtain rfl := Except.ok.inj h
  unfold setCompressionFactor at hone ⊢
  by_cases halone : s.validCounter ≤ 1
  · have halone' : (s.setBlk offset { b with size := size }).validCounter ≤ 1 := halone
    rw [if_pos halone'] at hone ⊢
    refine ⟨b, _, hb, ⟨rfl, ?_⟩, List.set_set .., rfl, hone, (if_pos halone).symm⟩
    simp [setBlk]
  · have halone' : ¬ (s.setBlk offset { b with size := size }).validCounter ≤ 1 := halone
    rw [if_neg halone'] at hone ⊢
    refine ⟨b, _, hb, ⟨rfl, ?_⟩, List.set_set .., rfl, hone, (if_neg halone).symm⟩
    simp [setBlk]

/-- What `insert` does. -/
theorem insert_spec {tag : ℕ} {isSecure : Bool} (h : s.insert tag isSecure offset = .ok t) :
    ∃ b, s.blks[offset]? = some b ∧ b.valid = false ∧ SameShape s t ∧
      t.blks = s.blks.set offset { b with valid := true } ∧
      t.validCounter = (s.validCounter + 1) % 2 ^ 8 ∧
      t.compressionFactor = s.compressionFactor := by
  obtain ⟨b, hb, h⟩ := bind_eq_ok.mp h
  rw [orFail_eq_ok] at hb
  obtain ⟨_, hinvalid, h⟩ := bind_eq_ok.mp h
  rw [require_eq_ok, Bool.not_eq_true'] at hinvalid
  obtain ⟨_, _, h⟩ := bind_eq_ok.mp h
  obtain rfl := Except.ok.inj h
  refine ⟨b, hb, hinvalid, ⟨?_, ?_⟩, ?_, ?_, ?_⟩ <;> simp [setBlk]

/-- What `invalidate` does. -/
theorem invalidate_spec (h : s.invalidate offset = .ok t) :
    ∃ b, s.blks[offset]? = some b ∧ b.valid = true ∧ SameShape s t ∧
      t.blks = s.blks.set offset { b with valid := false, compressed := false } ∧
      t.validCounter = (s.validCounter + (2 ^ 8 - 1)) % 2 ^ 8 ∧
      t.compressionFactor = if t.validCounter = 0 then 1 else s.compressionFactor := by
  obtain ⟨b, hb, h⟩ := bind_eq_ok.mp h
  rw [orFail_eq_ok] at hb
  obtain ⟨_, hvalid, h⟩ := bind_eq_ok.mp h
  rw [require_eq_ok] at hvalid
  obtain rfl := Except.ok.inj h
  unfold invalidateSubBlk
  by_cases hzero : (s.validCounter + (2 ^ 8 - 1)) % 2 ^ 8 = 0
  · have hzero' : ((s.setBlk offset { b with valid := false, compressed := false }).validCounter +
        (2 ^ 8 - 1)) % 2 ^ 8 = 0 := hzero
    rw [if_pos hzero']
    refine ⟨b, hb, hvalid, ⟨rfl, ?_⟩, rfl, rfl, (if_pos hzero).symm⟩
    simp [setBlk]
  · have hzero' : ¬ ((s.setBlk offset { b with valid := false, compressed := false }).validCounter +
        (2 ^ 8 - 1)) % 2 ^ 8 = 0 := hzero
    rw [if_neg hzero']
    refine ⟨b, hb, hvalid, ⟨rfl, ?_⟩, rfl, rfl, (if_neg hzero).symm⟩
    simp [setBlk]

/-- An invalidation keeps the invariant. -/
theorem Inv.invalidate (hinv : s.Inv) (h : s.invalidate offset = .ok t) : t.Inv := by
  obtain ⟨b, hb, hvalid, hsame, hblks, hcounter, hfactor⟩ := invalidate_spec h
  have hcount := countP_set_valid (c := { b with valid := false, compressed := false }) hb
  rw [if_pos hvalid, if_neg Bool.false_ne_true, ← hblks, ← hinv.counter] at hcount
  have hle := hinv.le
  have hlt := hinv.factor_lt
  have hpred : t.validCounter = t.blks.countP (·.valid) := by
    rw [hcounter]
    omega
  have hbits := hsame.blkSizeBits
  by_cases hzero : t.validCounter = 0
  · rw [if_pos hzero] at hfactor
    refine ⟨hpred, by omega, ⟨0, hfactor⟩, by omega, fun _ => hfactor, ?_⟩
    intro i c _ _
    rw [hfactor, Nat.one_mul]
    exact min_le_right _ _
  · rw [if_neg hzero] at hfactor
    refine ⟨hpred, by omega, hfactor ▸ hinv.rounded, by omega, fun h0 => absurd h0 hzero, ?_⟩
    intro i c hc hcv
    rw [hblks] at hc
    rw [hfactor, hbits]
    by_cases hi : i = offset
    · subst hi
      rw [List.getElem?_set_self (List.getElem?_eq_some_iff.mp hb).1] at hc
      obtain rfl := Option.some.inj hc
      cases hcv
    · rw [List.getElem?_set_ne (Ne.symm hi)] at hc
      exact hinv.share i c hc hcv

/-- The evicted blocks are not valid afterwards; the others stay. -/
theorem Inv.foldlM_invalidate (offsets : List ℕ) : ∀ {s : SuperBlk}, s.Inv →
    offsets.foldlM SuperBlk.invalidate s = .ok t → t.Inv ∧ SameShape s t ∧
      (∀ (i : ℕ) b, t.blks[i]? = some b → b.valid = true → s.blks[i]? = some b ∧ i ∉ offsets) ∧
      ∀ i, i ∉ offsets → t.blks[i]? = s.blks[i]? := by
  induction offsets with
  | nil =>
    intro s hinv h
    obtain rfl := Except.ok.inj h
    exact ⟨hinv, SameShape.refl s, fun i b hb _ => ⟨hb, List.not_mem_nil⟩, fun _ _ => rfl⟩
  | cons offset offsets ih =>
    intro s hinv h
    rw [List.foldlM_cons] at h
    obtain ⟨u, hu, hrest⟩ := bind_eq_ok.mp h
    obtain ⟨b, hb, _, hsame, hblks, _, _⟩ := invalidate_spec hu
    obtain ⟨hinv', hsame', hvalid', hother'⟩ := ih (hinv.invalidate hu) hrest
    refine ⟨hinv', hsame.trans hsame', ?_, ?_⟩
    · intro i c hc hcv
      obtain ⟨hc', hi⟩ := hvalid' i c hc hcv
      rw [hblks] at hc'
      by_cases hio : i = offset
      · subst hio
        rw [List.getElem?_set_self (List.getElem?_eq_some_iff.mp hb).1] at hc'
        obtain rfl := Option.some.inj hc'
        cases hcv
      · rw [List.getElem?_set_ne (Ne.symm hio)] at hc'
        exact ⟨hc', fun hmem => (List.mem_cons.mp hmem).elim hio hi⟩
    · intro i hi
      rw [List.mem_cons, not_or] at hi
      obtain ⟨hio, hi'⟩ := hi
      rw [hother' i hi', hblks, List.getElem?_set_ne (Ne.symm hio)]

/-- After an eviction only the kept block can be valid, and it is as it was. -/
theorem Inv.evict (hinv : s.Inv) {kept : Option ℕ} (h : s.evict kept = .ok t) :
    t.Inv ∧ SameShape s t ∧
      (∀ (i : ℕ) b, t.blks[i]? = some b → b.valid = true → some i = kept) ∧
      ∀ i, some i = kept → t.blks[i]? = s.blks[i]? := by
  obtain ⟨hinv', hsame, hvalid, hother⟩ := hinv.foldlM_invalidate (s.evictBlks kept) h
  refine ⟨hinv', hsame, ?_, ?_⟩
  · intro i b hb hv
    obtain ⟨hb', hi⟩ := hvalid i b hb hv
    by_contra hkept
    refine hi (List.mem_filter.mpr ⟨List.mem_range.mpr (List.getElem?_eq_some_iff.mp hb').1, ?_⟩)
    rw [hb', decide_eq_true hkept, Option.any_some, hv]
    rfl
  · intro i hi
    refine hother i fun hmem => ?_
    have hcond := (List.mem_filter.mp hmem).2
    rw [Bool.and_eq_true, decide_eq_true_eq] at hcond
    exact hcond.2 hi

/-- A size set beside other blocks: the factor stays. -/
theorem setSizeBits_beside (h : s.setSizeBits offset size = .ok t)
    (hcounter : s.validCounter = s.blks.countP (·.valid)) (htwo : ¬ s.validCounter ≤ 1)
    (hle : s.validCounter ≤ s.compressionFactor) (hround : ∃ j, s.compressionFactor = 2 ^ j)
    (hlt : s.compressionFactor < 2 ^ 8)
    (hshare : ∀ (i : ℕ) b, i ≠ offset → s.blks[i]? = some b → b.valid = true →
      s.compressionFactor * min b.size s.blkSizeBits ≤ s.blkSizeBits)
    (hsize : s.compressionFactor * min size s.blkSizeBits ≤ s.blkSizeBits) : t.Inv := by
  obtain ⟨b, compressed, hb, hsame, hblks, hcounter', _, hfactor⟩ := setSizeBits_spec h
  rw [if_neg htwo] at hfactor
  have hcount := countP_set_valid (c := { b with size := size, compressed := compressed }) hb
  rw [← hblks, Nat.add_right_cancel_iff] at hcount
  refine ⟨by rw [hcounter', hcount, hcounter], by omega, hfactor ▸ hround, by omega, ?_, ?_⟩
  · intro hzero
    omega
  · intro i c hc hcv
    rw [hfactor, hsame.blkSizeBits]
    rw [hblks] at hc
    by_cases hi : i = offset
    · subst hi
      rw [List.getElem?_set_self (List.getElem?_eq_some_iff.mp hb).1] at hc
      obtain rfl := Option.some.inj hc
      exact hsize
    · rw [List.getElem?_set_ne (Ne.symm hi)] at hc
      exact hshare i c hi hc hcv

/-- A size set for the only valid block: it sets the factor. -/
theorem setSizeBits_alone (hs : s.Sane) (h : s.setSizeBits offset size = .ok t)
    (hcounter : s.validCounter = s.blks.countP (·.valid)) (hone : s.validCounter ≤ 1)
    (hvalid : ∀ b, s.blks[offset]? = some b → b.valid = true) (hfits : s.Fits size) : t.Inv := by
  obtain ⟨b, compressed, hb, hsame, hblks, hcounter', hpos, hfactor⟩ := setSizeBits_spec h
  rw [if_pos hone] at hfactor
  have hcount := countP_set_valid (c := { b with size := size, compressed := compressed }) hb
  rw [← hblks, Nat.add_right_cancel_iff] at hcount
  obtain ⟨j, hj, hbyte, hshare⟩ := hfits.factor hs
  rw [hj] at hfactor
  have hjpos := Nat.two_pow_pos j
  refine ⟨by rw [hcounter', hcount, hcounter], by omega, ⟨j, hfactor⟩, hfactor ▸ hbyte, ?_, ?_⟩
  · intro hzero
    omega
  · intro i c hc hcv
    rw [hfactor, hsame.blkSizeBits]
    rw [hblks] at hc
    by_cases hi : i = offset
    · subst hi
      rw [List.getElem?_set_self (List.getElem?_eq_some_iff.mp hb).1] at hc
      obtain rfl := Option.some.inj hc
      exact hshare
    · rw [List.getElem?_set_ne (Ne.symm hi)] at hc
      have hinvalid := invalid_of_countP_one (by omega) hb (hvalid b hb) hc hi
      rw [hinvalid] at hcv
      cases hcv

end Operations

/-! ## Runs -/

/-- The size of an action fits in its share.  A co-allocated size is tested by the code, a block
that goes to another superblock is put there, and a block beside others whose size would allow a
larger factor than theirs is within the share it has. -/
def InShare (s : SuperBlk) : Op → Prop
  | .coAllocate .. => True
  | .invalidate _ => True
  | .replace _ _ _ size => s.Fits size
  | .update _ size replaceExpansions moveContractions victimItself =>
      s.Fits size ∨ s.movesAway size replaceExpansions moveContractions victimItself = true ∨
        s.compressionFactor < s.calculateCompressionFactor size ∧ moveContractions = false ∧
          1 < s.validCounter

instance (s : SuperBlk) : (op : Op) → Decidable (s.InShare op)
  | .coAllocate .. => .isTrue trivial
  | .invalidate _ => .isTrue trivial
  | .replace _ _ _ size => inferInstanceAs (Decidable (s.Fits size))
  | .update .. => inferInstanceAs (Decidable (_ ∨ _))

/-- The valid blocks are at most as many as the factor, and together they fit in one block. -/
def WithinCapacity (s : SuperBlk) : Prop :=
  s.blks.countP (·.valid) ≤ s.compressionFactor ∧
    ((s.blks.filter (·.valid)).map fun b => min b.size s.blkSizeBits).sum ≤ s.blkSizeBits

instance (s : SuperBlk) : Decidable s.WithinCapacity := inferInstanceAs (Decidable (_ ∧ _))

theorem Inv.withinCapacity {s : SuperBlk} (h : s.Inv) : s.WithinCapacity := by
  have hcount : s.blks.countP (·.valid) ≤ s.compressionFactor := h.counter ▸ h.le
  refine ⟨hcount, ?_⟩
  obtain ⟨j, hj⟩ := h.rounded
  have hpos : 0 < s.compressionFactor := hj ▸ Nat.two_pow_pos j
  refine Nat.le_of_mul_le_mul_left ?_ hpos
  have hsum : ∀ l : List CompressionBlk, (∀ b ∈ l, b.valid = true →
      s.compressionFactor * min b.size s.blkSizeBits ≤ s.blkSizeBits) →
      s.compressionFactor * ((l.filter (·.valid)).map fun b => min b.size s.blkSizeBits).sum ≤
        l.countP (·.valid) * s.blkSizeBits := by
    intro l
    induction l with
    | nil =>
      intro _
      simp
    | cons b l ih =>
      intro hl
      obtain ⟨hb, hrest⟩ := List.forall_mem_cons.mp hl
      have := ih hrest
      by_cases hv : b.valid = true
      · have hshare := hb hv
        rw [List.filter_cons_of_pos hv, List.map_cons, List.sum_cons, List.countP_cons_of_pos hv,
          Nat.mul_add, Nat.succ_mul]
        exact (Nat.add_le_add hshare this).trans_eq (Nat.add_comm _ _)
      · rw [List.filter_cons_of_neg hv, List.countP_cons_of_neg hv]
        exact this
  refine (hsum s.blks ?_).trans (Nat.mul_le_mul_right _ hcount)
  intro b hb hv
  obtain ⟨i, hi⟩ := List.mem_iff_getElem?.mp hb
  exact h.share i b hi hv

/-- An update in place, or after the eviction of the other blocks. -/
theorem Inv.update {s t : SuperBlk} (hs : s.Sane) (hinv : s.Inv) {offset size : ℕ}
    {replaceExpansions moveContractions victimItself : Bool} {b : CompressionBlk}
    (hb : s.blks[offset]? = some b) (hvalid : b.valid = true)
    (hadm : s.InShare (.update offset size replaceExpansions moveContractions victimItself))
    (hstep : (if s.movesAway size replaceExpansions moveContractions victimItself then
        s.invalidate offset
      else if s.overwriteType size moveContractions = .unchanged then s.setSizeBits offset size
      else do
        let u ← s.evict (some offset)
        u.setSizeBits offset size) = .ok t) : t.Inv ∧ SameShape s t := by
  by_cases haway : s.movesAway size replaceExpansions moveContractions victimItself = true
  · rw [if_pos haway] at hstep
    obtain ⟨_, _, _, hsame, _⟩ := invalidate_spec hstep
    exact ⟨hinv.invalidate hstep, hsame⟩
  rw [if_neg haway] at hstep
  have hfits := hadm.imp_right (fun h => h.resolve_left haway)
  obtain ⟨j, hj⟩ := hinv.rounded
  have htype : ∀ type, s.overwriteType size moveContractions = type →
      (type = .unchanged ↔ ¬ s.calculateCompressionFactor size < s.compressionFactor ∧
        ¬ (s.compressionFactor < s.calculateCompressionFactor size ∧ moveContractions = true)) := by
    rintro type rfl
    unfold overwriteType
    by_cases h1 : s.calculateCompressionFactor size < s.compressionFactor
    · simp [h1]
    · by_cases h2 : s.compressionFactor < s.calculateCompressionFactor size ∧
          moveContractions = true
      · simp [h1, h2]
      · rw [if_neg h1, if_neg h2]
        exact iff_of_true rfl ⟨h1, h2⟩
  by_cases hunchanged : s.overwriteType size moveContractions = .unchanged
  · rw [if_pos hunchanged] at hstep
    obtain ⟨_, _, _, hsame, _⟩ := setSizeBits_spec hstep
    obtain ⟨hge, hmove⟩ := (htype _ hunchanged).mp rfl
    refine ⟨?_, hsame⟩
    by_cases hone : s.validCounter ≤ 1
    · have hfit : s.Fits size := hfits.resolve_right fun h => absurd h.2.2 (by omega)
      refine setSizeBits_alone hs hstep hinv.counter hone ?_ hfit
      intro c hc
      exact Option.some.inj (hb.symm.trans hc) ▸ hvalid
    · refine setSizeBits_beside hstep hinv.counter hone hinv.le hinv.rounded hinv.factor_lt
        (fun i c _ => hinv.share i c) ?_
      -- the factor of the size is the one there is, or larger
      by_cases hgrow : s.compressionFactor < s.calculateCompressionFactor size
      · rw [hj] at hgrow ⊢
        exact share_of_growth hs hgrow
      · have hfit : s.Fits size := hfits.resolve_right fun h => hgrow h.1
        obtain ⟨k, hk, _, hshare⟩ := hfit.factor hs
        have heq : s.compressionFactor = 2 ^ k := by omega
        rw [heq]
        exact hshare
  · rw [if_neg hunchanged] at hstep
    obtain ⟨u, hevict, hset⟩ := bind_eq_ok.mp hstep
    obtain ⟨hinv', hsame, honly, hkept⟩ := hinv.evict hevict
    obtain ⟨_, _, _, hsame', _⟩ := setSizeBits_spec hset
    have hb' : u.blks[offset]? = some b := (hkept offset rfl).trans hb
    have hfit : s.Fits size := by
      refine hfits.resolve_right fun h => hunchanged ?_
      refine (htype _ rfl).mpr ⟨by omega, fun hmove => ?_⟩
      rw [h.2.1] at hmove
      exact Bool.false_ne_true hmove.2
    have hrest : (u.blks.set offset { b with valid := false }).countP (·.valid) = 0 := by
      refine List.countP_eq_zero.mpr fun c hc hv => ?_
      obtain ⟨i, hi⟩ := List.mem_iff_getElem?.mp hc
      by_cases hio : i = offset
      · subst hio
        rw [List.getElem?_set_self (List.getElem?_eq_some_iff.mp hb').1] at hi
        obtain rfl := Option.some.inj hi
        cases hv
      · rw [List.getElem?_set_ne (Ne.symm hio)] at hi
        exact hio (Option.some.inj (honly i c hi hv))
    have hcount := countP_set_valid (c := { b with valid := false }) hb'
    rw [hrest, if_pos hvalid, if_neg Bool.false_ne_true, ← hinv'.counter] at hcount
    refine ⟨setSizeBits_alone (hsame.sane hs) hset hinv'.counter (by omega) ?_
      ((hsame.fits size).mpr hfit), hsame.trans hsame'⟩
    intro c hc
    exact Option.some.inj (hb'.symm.trans hc) ▸ hvalid

/-- One action. -/
theorem Inv.step {s t : SuperBlk} (hs : s.Sane) (hinv : s.Inv) {op : Op} (hadm : s.InShare op)
    (hstep : s.step op = .ok t) : t.Inv ∧ SameShape s t := by
  have hlt := hinv.factor_lt
  have hle := hinv.le
  cases op with
  | coAllocate tag isSecure offset size =>
    obtain ⟨_, htest, hstep⟩ := bind_eq_ok.mp hstep
    obtain ⟨u, hinsert, hset⟩ := bind_eq_ok.mp hstep
    rw [require_eq_ok] at htest
    unfold coAllocatable matchTag canCoAllocate at htest
    simp only [Bool.and_eq_true, decide_eq_true_eq] at htest
    obtain ⟨⟨⟨⟨⟨hpos, _⟩, _⟩, _⟩, _⟩, hroom, hshare⟩ := htest
    obtain ⟨b, hb, hinvalid, hsame, hblks, hcounter, hfactor⟩ := insert_spec hinsert
    have hcount := countP_set_valid (c := { b with valid := true }) hb
    rw [← hblks, if_neg (by rw [hinvalid]; exact Bool.false_ne_true), if_pos rfl] at hcount
    have hsame' := setSizeBits_spec hset
    obtain ⟨_, _, _, hsame', _⟩ := hsame'
    have hold := hinv.counter
    refine ⟨setSizeBits_beside hset (by omega) (by omega) (by omega) (hfactor ▸ hinv.rounded)
      (by omega) ?_ ?_, hsame.trans hsame'⟩
    · intro i c hi hc hv
      rw [hblks, List.getElem?_set_ne (Ne.symm hi)] at hc
      rw [hfactor, hsame.blkSizeBits]
      exact hinv.share i c hc hv
    · rw [hfactor, hsame.blkSizeBits]
      exact (Nat.mul_le_mul_left _ ((min_le_left _ _).trans hshare)).trans (Nat.mul_div_le _ _)
  | replace tag isSecure offset size =>
    obtain ⟨u, hevict, hstep⟩ := bind_eq_ok.mp hstep
    obtain ⟨v, hinsert, hset⟩ := bind_eq_ok.mp hstep
    obtain ⟨hinv', hsame, hnone, _⟩ := hinv.evict hevict
    obtain ⟨b, hb, hinvalid, hsame', hblks, hcounter, hfactor⟩ := insert_spec hinsert
    obtain ⟨_, _, _, hsame'', _⟩ := setSizeBits_spec hset
    have hempty : u.blks.countP (·.valid) = 0 := by
      refine List.countP_eq_zero.mpr fun c hc hv => ?_
      obtain ⟨i, hi⟩ := List.mem_iff_getElem?.mp hc
      cases hnone i c hi hv
    have hcount := countP_set_valid (c := { b with valid := true }) hb
    rw [← hblks, if_neg (by rw [hinvalid]; exact Bool.false_ne_true), if_pos rfl, hempty] at hcount
    rw [hinv'.counter, hempty] at hcounter
    have hshape := hsame.trans hsame'
    refine ⟨setSizeBits_alone (hshape.sane hs) hset (by omega) (by omega) ?_
      ((hshape.fits size).mpr hadm), hshape.trans hsame''⟩
    intro c hc
    rw [hblks, List.getElem?_set_self (List.getElem?_eq_some_iff.mp hb).1] at hc
    exact Option.some.inj hc ▸ rfl
  | invalidate offset =>
    obtain ⟨_, _, _, hsame, _⟩ := invalidate_spec hstep
    exact ⟨hinv.invalidate hstep, hsame⟩
  | update offset size replaceExpansions moveContractions victimItself =>
    obtain ⟨b, hb, hstep⟩ := bind_eq_ok.mp hstep
    rw [orFail_eq_ok] at hb
    obtain ⟨_, hvalid, hstep⟩ := bind_eq_ok.mp hstep
    rw [require_eq_ok] at hvalid
    exact hinv.update hs hb hvalid hadm hstep

/-- **Capacity.**  For every superblock and every run whose sizes fit in their shares, the valid
blocks are at most as many as the compression factor, and their sizes, capped at the size of an
uncompressed block, add up to at most the block size. -/
theorem capacity_run {a c : ℕ} (ha : a < 32) (ops : List Op) {s : SuperBlk}
    (hadm : Admitted InShare step (init (2 ^ a) (2 ^ c)) ops)
    (hrun : run step (init (2 ^ a) (2 ^ c)) ops = .ok s) : s.WithinCapacity := by
  have hinit : (init (2 ^ a) (2 ^ c)).Sane :=
    ⟨⟨a, rfl, ha⟩, ⟨c, List.length_replicate⟩⟩
  have hempty : (init (2 ^ a) (2 ^ c)).blks.countP (·.valid) = 0 := by
    simp [init]
  have hstart : (init (2 ^ a) (2 ^ c)).Inv := by
    refine ⟨hempty.symm, Nat.zero_le _, ⟨0, rfl⟩, (by decide : 1 < 2 ^ 8), fun _ => rfl, ?_⟩
    intro i b hb hv
    obtain rfl := List.eq_of_mem_replicate (List.mem_of_getElem? hb)
    cases hv
  have hall : s.Inv ∧ SameShape (init (2 ^ a) (2 ^ c)) s := by
    refine run_invariant (P := fun t => t.Inv ∧ SameShape (init (2 ^ a) (2 ^ c)) t) ?_
      ⟨hstart, SameShape.refl _⟩ hadm hrun
    rintro t op t' ⟨ht, hshape⟩ hop hstep
    obtain ⟨ht', hshape'⟩ := ht.step (hshape.sane hinit) hop hstep
    exact ⟨ht', hshape.trans hshape'⟩
  exact hall.1.withinCapacity

/-- Three of four blocks of 128 bits, an update that expands one of them, and a co-allocation. -/
def expandingRun : List Op :=
  [.replace 7 false 0 128, .coAllocate 7 false 1 100, .coAllocate 7 false 2 128,
    .update 1 200 false false false, .coAllocate 7 false 3 256]

theorem capacity_run_expanding :
    ∃ s, run step (init (2 ^ 6) (2 ^ 2)) expandingRun = .ok s ∧ s.WithinCapacity :=
  ⟨_, rfl, capacity_run (a := 6) (c := 2) (by decide) expandingRun (by decide) rfl⟩

/-- **Too much in a superblock.**  A block of 150 of 512 bits, of which three would fit, gets the
factor four, and three blocks of 128 bits are co-allocated with it: 534 bits. -/
theorem rounding_up_overflows :
    ∃ s, run step (init (2 ^ 6) (2 ^ 2)) [.replace 7 false 0 150, .coAllocate 7 false 1 128,
      .coAllocate 7 false 2 128, .coAllocate 7 false 3 128] = .ok s ∧ ¬ s.WithinCapacity :=
  ⟨_, rfl, by decide⟩

end SuperBlk

end Gem5.Mem
