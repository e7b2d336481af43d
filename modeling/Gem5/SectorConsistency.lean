/-
# Sector tags stay consistent

A sector, its blocks and its counter keep one invariant under the insertion and the invalidation of a
block, as long as the counter does not wrap.  Over a run of the tags this gives the agreement of all
views of the state, and none of the assertions fails.
-/
import Gem5.SectorTags

open Runs

namespace Gem5.Mem.Sectors

/-! ## One sector -/

namespace SectorBlk

/-- **The invariant of a sector**, in tags that shift the tag by `tagShift`. -/
structure WellFormed (p : Params) (sector : SectorBlk) : Prop where
  length_blks : sector.blks.length = p.numBlocksPerSector
  counter : sector.validCounter = sector.numValid
  le_255 : sector.numValid ≤ 255
  tags : ∀ blk ∈ sector.blks, blk.valid = true → blk.tag = sector.tag ∧ blk.secure = sector.secure
  clear_blk : ∀ blk ∈ sector.blks, blk.valid = false → blk.secure = false
  clear : sector.isValid = false → sector.secure = false
  tag_fits : sector.isValid = true → sector.tag * 2 ^ p.tagShift < 2 ^ 64

variable {p : Params} {sector : SectorBlk}

variable {blk : SectorSubBlk} {offset : ℕ}

theorem numValid_set (h : sector.blks[offset]? = some blk) (blk' : SectorSubBlk) :
    (sector.blks.set offset blk').countP (·.valid) + blk.valid.toNat
      = sector.numValid + blk'.valid.toNat := by
  obtain ⟨hlt, hget⟩ := List.getElem?_eq_some_iff.mp h
  have hle : blk.valid.toNat ≤ sector.blks.countP (·.valid) := by
    cases hv : blk.valid with
    | false => exact Nat.zero_le _
    | true => exact List.countP_pos_iff.mpr ⟨blk, List.mem_of_getElem? h, hv⟩
  have hite (b : Bool) : (if b = true then 1 else 0) = b.toNat := by cases b <;> rfl
  rw [List.countP_set hlt, hget, hite, hite]
  unfold numValid
  omega

theorem isValid_iff (h : sector.WellFormed p) : sector.isValid = true ↔ 0 < sector.numValid := by
  rw [← h.counter]
  simp [isValid]

theorem isValid_of_mem (h : sector.WellFormed p) (hmem : blk ∈ sector.blks)
    (hvalid : blk.valid = true) : sector.isValid = true :=
  (isValid_iff h).mpr (List.countP_pos_iff.mpr ⟨blk, hmem, hvalid⟩)

/-- The sector as it is before the block comes in has the tag and the security bit of the block. -/
theorem insertTag_spec (h : sector.WellFormed p) {tag : ℕ} {isSecure : Bool}
    (hmatch : sector.isValid = true → sector.matchTag tag isSecure = true) (htag : tag ≠ MaxAddr) :
    (sector.insertTag tag isSecure).tag = tag ∧
      (sector.insertTag tag isSecure).secure = isSecure ∧
      (sector.insertTag tag isSecure).validCounter = sector.validCounter := by
  unfold insertTag
  cases hv : sector.isValid with
  | false => simp [htag, h.clear hv]
  | true =>
    have hm := hmatch hv
    simp only [matchTag, Bool.and_eq_true, decide_eq_true_eq] at hm
    simp [hm.1.2, hm.2]

/-- **A block is inserted.** -/
theorem insert_spec (h : sector.WellFormed p) {tag : ℕ} {isSecure : Bool}
    (hblk : sector.blks[offset]? = some blk) (hinvalid : blk.valid = false)
    (hmatch : sector.isValid = true → sector.matchTag tag isSecure = true)
    (hroom : sector.numValid < 255) (htag : tag ≠ MaxAddr) (hfits : tag * 2 ^ p.tagShift < 2 ^ 64) :
    ∃ sector', sector.insert offset tag isSecure = .ok sector' ∧ sector'.WellFormed p ∧
      sector'.isValid = true ∧ sector'.tag = tag ∧ sector'.secure = isSecure := by
  obtain ⟨hinstag, hinssec, hinscount⟩ := insertTag_spec h hmatch htag
  have hpanic : (!(sector.isValid && !sector.matchTag tag isSecure)) = true := by
    cases hv : sector.isValid with
    | false => rfl
    | true => simp [hmatch hv]
  have hblksec : blk.secure = false := h.clear_blk blk (List.mem_of_getElem? hblk) hinvalid
  have hcount : (sector.validCounter + 1) % 2 ^ 8 = sector.numValid + 1 := by
    rw [h.counter]
    exact Nat.mod_eq_of_lt (by omega)
  have hnum := numValid_set hblk { valid := true, tag := tag, secure := isSecure }
  rw [hinvalid] at hnum
  simp only [Bool.toNat_false, Bool.toNat_true, Nat.add_zero] at hnum
  let sector' : SectorBlk :=
    { validCounter := sector.numValid + 1, tag := tag, secure := isSecure,
      blks := sector.blks.set offset { valid := true, tag := tag, secure := isSecure } }
  have hvalid' : sector'.isValid = true := by simp [sector', isValid]
  refine ⟨sector', ?_, ?_, hvalid', rfl, rfl⟩
  · refine bind_eq_ok.mpr ⟨blk, orFail_eq_ok.mpr hblk, bind_eq_ok.mpr ⟨(), ?_,
      bind_eq_ok.mpr ⟨(), require_ok hpanic, ?_⟩⟩⟩
    · exact require_ok (by rw [hinvalid]; rfl)
    · simp only [validateSubBlk, hinscount, hcount, hinstag, hinssec, hblksec, Bool.or_false]
      rfl
  · refine ⟨?_, hnum.symm, ?_, ?_, ?_, ?_, fun _ => hfits⟩
    · simp [sector', h.length_blks]
    · change (sector.blks.set offset _).countP _ ≤ 255
      omega
    · intro b hb hbvalid
      rcases List.mem_or_eq_of_mem_set hb with hb | rfl
      · have hm := hmatch (isValid_of_mem h hb hbvalid)
        simp only [matchTag, Bool.and_eq_true, decide_eq_true_eq] at hm
        obtain ⟨htag', hsec'⟩ := h.tags b hb hbvalid
        exact ⟨htag'.trans hm.1.2, hsec'.trans hm.2⟩
      · exact ⟨rfl, rfl⟩
    · intro b hb hbvalid
      rcases List.mem_or_eq_of_mem_set hb with hb | rfl
      · exact h.clear_blk b hb hbvalid
      · cases hbvalid
    · intro hno
      rw [hvalid'] at hno
      cases hno

/-- **A block is invalidated.** -/
theorem invalidate_spec (h : sector.WellFormed p) (hblk : sector.blks[offset]? = some blk)
    (hvalid : blk.valid = true) :
    ∃ sector', sector.invalidate offset = .ok sector' ∧ sector'.WellFormed p ∧
      sector'.blks = sector.blks.set offset {} ∧ sector'.numValid + 1 = sector.numValid ∧
      (sector'.isValid = true → sector'.tag = sector.tag ∧ sector'.secure = sector.secure) := by
  have hnum := numValid_set hblk {}
  rw [hvalid] at hnum
  simp only [Bool.toNat_false, Bool.toNat_true, Nat.add_zero] at hnum
  have hle := h.le_255
  have hcount : (sector.validCounter + (2 ^ 8 - 1)) % 2 ^ 8 = sector.numValid - 1 := by
    rw [h.counter]
    omega
  have hok : sector.invalidate offset
      = .ok { sector.invalidateSubBlk with blks := sector.blks.set offset {} } :=
    bind_eq_ok.mpr ⟨blk, orFail_eq_ok.mpr hblk,
      bind_eq_ok.mpr ⟨(), require_ok hvalid, rfl⟩⟩
  refine ⟨_, hok, ?_⟩
  have hclear : ∀ b ∈ sector.blks.set offset {}, b.valid = false → b.secure = false := by
    intro b hb hbvalid
    rcases List.mem_or_eq_of_mem_set hb with hb | rfl
    · exact h.clear_blk b hb hbvalid
    · rfl
  unfold invalidateSubBlk
  rw [hcount]
  by_cases hlast : sector.numValid - 1 = 0
  · rw [if_pos hlast]
    have hnone : (sector.blks.set offset {}).countP (·.valid) = 0 := by omega
    refine ⟨⟨by simp [h.length_blks], ?_, ?_, ?_, hclear, fun _ => rfl, ?_⟩, rfl, hnum, ?_⟩
    · change sector.numValid - 1 = (sector.blks.set offset {}).countP (·.valid)
      omega
    · change (sector.blks.set offset {}).countP (·.valid) ≤ 255
      omega
    · intro b hb hbvalid
      exact absurd hbvalid (List.countP_eq_zero.mp hnone b hb)
    · intro hv
      simp [isValid, hlast] at hv
    · intro hv
      simp [isValid, hlast] at hv
  · rw [if_neg hlast]
    have hwas : sector.isValid = true := (isValid_iff h).mpr (by omega)
    refine ⟨⟨by simp [h.length_blks], ?_, ?_, ?_, hclear, ?_, fun _ => h.tag_fits hwas⟩, rfl,
      hnum, fun _ => ⟨rfl, rfl⟩⟩
    · change sector.numValid - 1 = (sector.blks.set offset {}).countP (·.valid)
      omega
    · change (sector.blks.set offset {}).countP (·.valid) ≤ 255
      omega
    · intro b hb hbvalid
      rcases List.mem_or_eq_of_mem_set hb with hb | rfl
      · exact h.tags b hb hbvalid
      · cases hbvalid
    · intro hv
      have hpos : 0 < sector.numValid - 1 := by omega
      simp [isValid, hpos] at hv

theorem mem_validOffsets :
    offset ∈ sector.validOffsets ↔ ∃ blk, sector.blks[offset]? = some blk ∧ blk.valid = true := by
  simp [validOffsets, List.mem_zipIdx_iff_getElem?]

theorem length_validOffsets : sector.validOffsets.length = sector.numValid := by
  unfold validOffsets numValid
  rw [List.length_map, ← List.countP_eq_length_filter,
    ← List.zipIdx_map_fst 0 sector.blks, List.countP_map, List.zipIdx_map_fst]
  rfl

theorem nodup_validOffsets : sector.validOffsets.Nodup := by
  unfold validOffsets
  apply List.Nodup.sublist (List.filter_sublist.map _)
  rw [List.zipIdx_map_snd]
  exact List.nodup_range'

/-- A lookup among the blocks of a sector does not fail. -/
theorem matchSubBlk_eq (h : sector.WellFormed p) (hblk : blk ∈ sector.blks) (tag : ℕ)
    (isSecure : Bool) : sector.matchSubBlk blk tag isSecure
      = .ok (blk.valid && decide (sector.tag = tag) && decide (sector.secure = isSecure)) := by
  unfold matchSubBlk
  cases hv : blk.valid with
  | false => simp
  | true =>
    obtain ⟨htag, hsec⟩ := h.tags blk hblk hv
    rw [if_pos rfl, hsec]
    exact bind_eq_ok.mpr ⟨(), require_ok (decide_eq_true htag), rfl⟩

end SectorBlk

/-! ## Addresses -/

/-- The parameters as powers of two. -/
structure Params.Sized (p : Params) (a b s : ℕ) : Prop where
  blkSize : p.blkSize = 2 ^ a
  numBlocksPerSector : p.numBlocksPerSector = 2 ^ b
  numSets : p.numSets = 2 ^ s
  entry_lt : a + b < 31
  sets_lt : p.numSets < 2 ^ 32
  assoc_pos : 0 < p.assoc
  blkSize_ge : 2 ≤ a

theorem Params.Accepted.sized {p : Params} (h : p.Accepted) : ∃ a b s, p.Sized a b s := by
  obtain ⟨hge, hblk, hnum, hsets, hentry, hlt, hassoc⟩ := h
  obtain ⟨a, ha⟩ := FALRU.exists_two_pow hblk
  obtain ⟨b, hb⟩ := FALRU.exists_two_pow hnum
  obtain ⟨s, hs⟩ := FALRU.exists_two_pow hsets
  rw [ha, hb, ← Nat.pow_add] at hentry
  refine ⟨a, b, s, ha, hb, hs, (Nat.pow_lt_pow_iff_right (by decide)).mp hentry, hlt, hassoc, ?_⟩
  rw [ha] at hge
  exact (Nat.pow_le_pow_iff_right (by decide : 1 < 2)).mp hge

namespace Params.Sized

variable {p : Params} {a b s : ℕ} (h : p.Sized a b s)
include h

theorem sectorShift : p.sectorShift = a := by
  rw [Params.sectorShift, h.blkSize, Nat.log2_two_pow]

theorem setShift : p.setShift = a + b := by
  rw [Params.setShift, h.blkSize, h.numBlocksPerSector, ← Nat.pow_add, Nat.log2_two_pow]

theorem tagShift : p.tagShift = a + b + s := by
  rw [Params.tagShift, h.setShift, h.numSets, Nat.log2_two_pow]

theorem extractTag (addr : ℕ) : p.extractTag addr = addr / 2 ^ (a + b + s) := by
  rw [Params.extractTag, h.tagShift, Nat.shiftRight_eq_div_pow]

theorem extractSet (addr : ℕ) : p.extractSet addr = addr / 2 ^ (a + b) % 2 ^ s := by
  have hlt : addr / 2 ^ (a + b) % 2 ^ s < 2 ^ 32 := by
    have hmod := Nat.mod_lt (addr / 2 ^ (a + b)) (Nat.two_pow_pos s)
    have hsets := h.sets_lt
    rw [h.numSets] at hsets
    omega
  rw [Params.extractSet, h.setShift, Params.setMask, h.numSets, Nat.shiftRight_eq_div_pow,
    Nat.and_two_pow_sub_one_eq_mod, Nat.mod_eq_of_lt hlt]

theorem extractSectorOffset (addr : ℕ) :
    p.extractSectorOffset addr = addr / 2 ^ a % 2 ^ b := by
  rw [Params.extractSectorOffset, h.sectorShift, Params.sectorMask, h.numBlocksPerSector,
    Nat.shiftRight_eq_div_pow, Nat.and_two_pow_sub_one_eq_mod]

theorem extractSet_lt (addr : ℕ) : p.extractSet addr < p.numSets := by
  rw [h.extractSet, h.numSets]
  exact Nat.mod_lt _ (Nat.two_pow_pos s)

theorem extractSectorOffset_lt (addr : ℕ) :
    p.extractSectorOffset addr < p.numBlocksPerSector := by
  rw [h.extractSectorOffset, h.numBlocksPerSector]
  exact Nat.mod_lt _ (Nat.two_pow_pos b)

/-- The tag of a 64-bit address fits, and is not the tag of invalid blocks. -/
theorem extractTag_fits {addr : ℕ} (haddr : addr < 2 ^ 64) :
    p.extractTag addr * 2 ^ p.tagShift < 2 ^ 64 ∧ p.extractTag addr ≠ MaxAddr := by
  rw [h.extractTag, h.tagShift]
  have hle := Nat.div_mul_le_self addr (2 ^ (a + b + s))
  have hpow : 2 ^ 2 ≤ 2 ^ (a + b + s) :=
    Nat.pow_le_pow_right (by decide) (by have := h.blkSize_ge; omega)
  have hmul := Nat.mul_le_mul_left (addr / 2 ^ (a + b + s)) hpow
  unfold MaxAddr
  omega

/-- **The entries of an address are the sectors of its set.** -/
theorem mem_getPossibleEntries {addr i : ℕ} :
    i ∈ p.getPossibleEntries addr ↔ i / p.assoc = p.extractSet addr := by
  have hpos := h.assoc_pos
  simp only [Params.getPossibleEntries, Params.sectorIndex, List.mem_map, List.mem_range]
  constructor
  · rintro ⟨way, hway, rfl⟩
    rw [Nat.mul_comm, Nat.mul_add_div hpos, Nat.div_eq_of_lt hway, Nat.add_zero]
  · intro hi
    refine ⟨i % p.assoc, Nat.mod_lt i hpos, ?_⟩
    rw [← hi, Nat.mul_comm]
    exact Nat.div_add_mod i p.assoc

theorem lt_numSectors {i : ℕ} (hi : i / p.assoc < p.numSets) : i < p.numSectors :=
  (Nat.div_lt_iff_lt_mul h.assoc_pos).mp hi

/-- The address of a block as a sum, when nothing is cut off. -/
theorem regenerate_eq {sector : SectorBlk} {i offset : ℕ}
    (htag : sector.tag * 2 ^ p.tagShift < 2 ^ 64)
    (hset : (i / p.assoc) <<< p.setShift < 2 ^ 32) (hi : i / p.assoc < p.numSets)
    (hoffset : offset < p.numBlocksPerSector) :
    regenerateBlkAddr p sector i offset
      = 2 ^ (a + b + s) * sector.tag + (2 ^ (a + b) * (i / p.assoc) + 2 ^ a * offset) := by
  rw [h.numSets] at hi
  rw [h.numBlocksPerSector] at hoffset
  rw [h.setShift, Nat.shiftLeft_eq] at hset
  rw [h.tagShift] at htag
  have hoff : offset * 2 ^ a < 2 ^ (a + b) := by
    rw [Nat.pow_add, Nat.mul_comm (2 ^ a)]
    exact Nat.mul_lt_mul_of_pos_right hoffset (Nat.two_pow_pos a)
  have hoff64 : offset * 2 ^ a < 2 ^ 64 := by
    have hpow : 2 ^ (a + b) ≤ 2 ^ 64 :=
      Nat.pow_le_pow_right (by decide) (by have := h.entry_lt; omega)
    omega
  have hlow : 2 ^ (a + b) * (i / p.assoc) + offset * 2 ^ a < 2 ^ (a + b + s) := by
    have hmul : 2 ^ (a + b) * (i / p.assoc + 1) ≤ 2 ^ (a + b) * 2 ^ s :=
      Nat.mul_le_mul_left _ hi
    rw [Nat.mul_succ, ← Nat.pow_add] at hmul
    omega
  rw [regenerateBlkAddr, Params.regenerateAddr, h.tagShift, h.setShift, h.sectorShift,
    Nat.shiftLeft_eq, Nat.shiftLeft_eq, Nat.shiftLeft_eq, Nat.mod_eq_of_lt htag,
    Nat.mod_eq_of_lt hset, Nat.mod_eq_of_lt hoff64, Nat.or_assoc,
    Nat.mul_comm (i / p.assoc), ← Nat.two_pow_add_eq_or_of_lt hoff, Nat.mul_comm sector.tag,
    ← Nat.two_pow_add_eq_or_of_lt hlow, Nat.mul_comm offset]

/-- **A block's address leads back to it**: to its tag, its set and its offset. -/
theorem regenerate_spec {sector : SectorBlk} {i offset : ℕ}
    (htag : sector.tag * 2 ^ p.tagShift < 2 ^ 64)
    (hset : (i / p.assoc) <<< p.setShift < 2 ^ 32) (hi : i / p.assoc < p.numSets)
    (hoffset : offset < p.numBlocksPerSector) :
    p.extractTag (regenerateBlkAddr p sector i offset) = sector.tag ∧
      p.extractSet (regenerateBlkAddr p sector i offset) = i / p.assoc ∧
      p.extractSectorOffset (regenerateBlkAddr p sector i offset) = offset := by
  rw [h.extractTag, h.extractSet, h.extractSectorOffset,
    h.regenerate_eq htag hset hi hoffset]
  rw [h.numSets] at hi
  rw [h.numBlocksPerSector] at hoffset
  have ha := Nat.two_pow_pos a
  have hb := Nat.two_pow_pos b
  have hs := Nat.two_pow_pos s
  have hin : 2 ^ a * offset < 2 ^ (a + b) := by
    rw [Nat.pow_add]
    exact Nat.mul_lt_mul_of_pos_left hoffset ha
  have hlow : 2 ^ (a + b) * (i / p.assoc) + 2 ^ a * offset < 2 ^ (a + b + s) := by
    have hmul : 2 ^ (a + b) * (i / p.assoc + 1) ≤ 2 ^ (a + b) * 2 ^ s :=
      Nat.mul_le_mul_left _ hi
    rw [Nat.mul_succ, ← Nat.pow_add] at hmul
    omega
  refine ⟨?_, ?_, ?_⟩
  · rw [Nat.mul_add_div (Nat.two_pow_pos _), Nat.div_eq_of_lt hlow, Nat.add_zero]
  · have hsum : 2 ^ (a + b + s) * sector.tag + (2 ^ (a + b) * (i / p.assoc) + 2 ^ a * offset)
        = 2 ^ (a + b) * (2 ^ s * sector.tag + i / p.assoc) + 2 ^ a * offset := by
      rw [Nat.pow_add 2 (a + b) s]
      ring
    rw [hsum, Nat.mul_add_div (Nat.two_pow_pos _), Nat.div_eq_of_lt hin, Nat.add_zero,
      Nat.mul_add_mod, Nat.mod_eq_of_lt hi]
  · have hsum : 2 ^ (a + b + s) * sector.tag + (2 ^ (a + b) * (i / p.assoc) + 2 ^ a * offset)
        = 2 ^ a * (2 ^ b * (2 ^ s * sector.tag + i / p.assoc) + offset) := by
      rw [Nat.pow_add 2 (a + b) s, Nat.pow_add 2 a b]
      ring
    rw [hsum, Nat.mul_div_cancel_left _ ha, Nat.mul_add_mod, Nat.mod_eq_of_lt hoffset]

end Params.Sized

/-! ## All sectors -/

/-- **The invariant of the tags.** -/
structure Inv (p : Params) (t : SectorTags) : Prop where
  length_secBlks : t.secBlks.length = p.numSectors
  sectors : ∀ {i : ℕ} {sector : SectorBlk}, t.secBlks[i]? = some sector → sector.WellFormed p
  distinct : ∀ {i j : ℕ} {sector sector' : SectorBlk}, t.secBlks[i]? = some sector →
    t.secBlks[j]? = some sector' → i / p.assoc = j / p.assoc → sector.isValid = true →
      sector'.isValid = true → sector.tag = sector'.tag → sector.secure = sector'.secure → i = j
  inUse : t.tagsInUse = t.secBlks.countP (·.isValid)
  set_fits : ∀ {i : ℕ} {sector : SectorBlk}, t.secBlks[i]? = some sector →
    sector.isValid = true → (i / p.assoc) <<< p.setShift < 2 ^ 32

theorem countP_set_isValid {l : List SectorBlk} {i : ℕ} {sector : SectorBlk}
    (h : l[i]? = some sector) (sector' : SectorBlk) :
    (l.set i sector').countP (·.isValid) + sector.isValid.toNat
      = l.countP (·.isValid) + sector'.isValid.toNat := by
  obtain ⟨hlt, hget⟩ := List.getElem?_eq_some_iff.mp h
  have hle : sector.isValid.toNat ≤ l.countP (·.isValid) := by
    cases hv : sector.isValid with
    | false => exact Nat.zero_le _
    | true => exact List.countP_pos_iff.mpr ⟨sector, List.mem_of_getElem? h, hv⟩
  have hite (b : Bool) : (if b = true then 1 else 0) = b.toNat := by cases b <;> rfl
  rw [List.countP_set hlt, hget, hite, hite]
  omega

namespace Inv

variable {p : Params} {t : SectorTags}

variable {sector : SectorBlk} {i offset addr : ℕ} {isSecure : Bool}

/-- One sector is replaced: by one whose tag, if it is valid, no other sector of its set has. -/
theorem replace (h : Inv p t) {sector' : SectorBlk} {n : ℤ} (hi : t.secBlks[i]? = some sector)
    (hwf : sector'.WellFormed p)
    (hdistinct : sector'.isValid = true → ∀ {j : ℕ} {other : SectorBlk},
      t.secBlks[j]? = some other → j ≠ i → i / p.assoc = j / p.assoc → other.isValid = true →
        ¬ (sector'.tag = other.tag ∧ sector'.secure = other.secure))
    (hfits : sector'.isValid = true → (i / p.assoc) <<< p.setShift < 2 ^ 32)
    (hn : n + sector.isValid.toNat = t.tagsInUse + sector'.isValid.toNat) :
    Inv p { secBlks := t.secBlks.set i sector', tagsInUse := n } := by
  have hlt : i < t.secBlks.length := (List.getElem?_eq_some_iff.mp hi).choose
  have hself : (t.secBlks.set i sector')[i]? = some sector' := by
    rw [List.getElem?_set_self hlt]
  have hother {j : ℕ} (hj : j ≠ i) : (t.secBlks.set i sector')[j]? = t.secBlks[j]? :=
    List.getElem?_set_ne hj.symm
  refine ⟨by simp [h.length_secBlks], ?_, ?_, ?_, ?_⟩
  · intro j sj hj
    by_cases hji : j = i
    · subst hji
      obtain rfl := Option.some.inj (hself.symm.trans hj)
      exact hwf
    · exact h.sectors ((hother hji).symm.trans hj)
  · intro j k sj sk hj hk hset hvj hvk htag hsec
    by_cases hji : j = i
    · subst hji
      obtain rfl := Option.some.inj (hself.symm.trans hj)
      by_contra hne
      exact hdistinct hvj ((hother (Ne.symm hne)).symm.trans hk) (Ne.symm hne) hset hvk
        ⟨htag, hsec⟩
    · rw [hother hji] at hj
      by_cases hki : k = i
      · subst hki
        obtain rfl := Option.some.inj (hself.symm.trans hk)
        exact absurd ⟨htag.symm, hsec.symm⟩ (hdistinct hvk hj hji hset.symm hvj)
      · exact h.distinct hj ((hother hki).symm.trans hk) hset hvj hvk htag hsec
  · have hcount := countP_set_isValid hi sector'
    have huse := h.inUse
    change n = ((t.secBlks.set i sector').countP (·.isValid) : ℕ)
    omega
  · intro j sj hj hvj
    by_cases hji : j = i
    · subst hji
      obtain rfl := Option.some.inj (hself.symm.trans hj)
      exact hfits hvj
    · exact h.set_fits ((hother hji).symm.trans hj) hvj

/-- **A valid block is invalidated.** -/
theorem invalidate_spec (h : Inv p t) {blk : SectorSubBlk} (hi : t.secBlks[i]? = some sector)
    (hblk : sector.blks[offset]? = some blk) (hvalid : blk.valid = true) :
    ∃ t' sector', invalidate t i offset = .ok t' ∧ Inv p t' ∧
      t'.secBlks = t.secBlks.set i sector' ∧ sector'.blks = sector.blks.set offset {} ∧
      sector'.numValid + 1 = sector.numValid := by
  have hsector := h.sectors hi
  obtain ⟨sector', hok, hwf, hblks, hnum, hsame⟩ :=
    SectorBlk.invalidate_spec hsector hblk hvalid
  have hwas : sector.isValid = true :=
    SectorBlk.isValid_of_mem hsector (List.mem_of_getElem? hblk) hvalid
  have hdistinct : sector'.isValid = true → ∀ {j : ℕ} {other : SectorBlk},
      t.secBlks[j]? = some other → j ≠ i → i / p.assoc = j / p.assoc → other.isValid = true →
        ¬ (sector'.tag = other.tag ∧ sector'.secure = other.secure) := by
    intro hv j other hj hne hset hvj hboth
    obtain ⟨htag, hsec⟩ := hsame hv
    exact hne (h.distinct hi hj hset hwas hvj (htag ▸ hboth.1) (hsec ▸ hboth.2)).symm
  have hfits : sector'.isValid = true → (i / p.assoc) <<< p.setShift < 2 ^ 32 :=
    fun _ => h.set_fits hi hwas
  cases hv : sector'.isValid with
  | true =>
    refine ⟨{ t with secBlks := t.secBlks.set i sector' }, sector', ?_,
      h.replace hi hwf hdistinct hfits (by simp [hwas, hv]), rfl, hblks, hnum⟩
    refine bind_eq_ok.mpr ⟨sector, orFail_eq_ok.mpr hi, bind_eq_ok.mpr ⟨sector', hok, ?_⟩⟩
    rw [if_pos hv]
    rfl
  | false =>
    have hpos : 0 < t.secBlks.countP (·.isValid) :=
      List.countP_pos_iff.mpr ⟨sector, List.mem_of_getElem? hi, hwas⟩
    have huse := h.inUse
    have hge : 0 ≤ t.tagsInUse - 1 := by omega
    refine ⟨{ secBlks := t.secBlks.set i sector', tagsInUse := t.tagsInUse - 1 }, sector', ?_,
      h.replace hi hwf hdistinct hfits (by simp [hwas, hv]), rfl, hblks, hnum⟩
    refine bind_eq_ok.mpr ⟨sector, orFail_eq_ok.mpr hi, bind_eq_ok.mpr ⟨sector', hok, ?_⟩⟩
    rw [if_neg (by simp [hv])]
    exact bind_eq_ok.mpr ⟨(), require_ok (decide_eq_true hge), rfl⟩

/-- **All valid blocks of a sector are evicted.** -/
theorem evict_spec (offsets : List ℕ) :
    ∀ {t : SectorTags} {sector : SectorBlk}, Inv p t → t.secBlks[i]? = some sector →
      offsets.Nodup → (∀ offset ∈ offsets, ∃ blk, sector.blks[offset]? = some blk ∧
        blk.valid = true) →
      ∃ t' sector', offsets.foldlM (fun t offset => invalidate t i offset) t = .ok t' ∧
        Inv p t' ∧ t'.secBlks = t.secBlks.set i sector' ∧
        sector'.numValid + offsets.length = sector.numValid := by
  induction offsets with
  | nil =>
    intro t sector h hi _ _
    obtain ⟨hlt, rfl⟩ := List.getElem?_eq_some_iff.mp hi
    exact ⟨t, _, rfl, h, (List.set_getElem_self hlt).symm, rfl⟩
  | cons offset offsets ih =>
    intro t sector h hi hnodup hvalid
    obtain ⟨hnotin, hnodup'⟩ := List.nodup_cons.mp hnodup
    obtain ⟨blk, hblk, hv⟩ := hvalid offset (by simp)
    obtain ⟨t₁, sector₁, hok, hinv, hsec, hblks, hnum⟩ := h.invalidate_spec hi hblk hv
    have hlt : i < t.secBlks.length := (List.getElem?_eq_some_iff.mp hi).choose
    have hi₁ : t₁.secBlks[i]? = some sector₁ := by rw [hsec, List.getElem?_set_self hlt]
    have hvalid₁ : ∀ o ∈ offsets, ∃ blk, sector₁.blks[o]? = some blk ∧ blk.valid = true := by
      intro o ho
      have hne : offset ≠ o := fun heq => hnotin (heq ▸ ho)
      rw [hblks, List.getElem?_set_ne hne]
      exact hvalid o (by simp [ho])
    obtain ⟨t', sector', hok', hinv', hsec', hnum'⟩ := ih hinv hi₁ hnodup' hvalid₁
    refine ⟨t', sector', ?_, hinv', ?_, ?_⟩
    · rw [List.foldlM_cons]
      exact bind_eq_ok.mpr ⟨t₁, hok, hok'⟩
    · rw [hsec', hsec, List.set_set]
    · rw [List.length_cons]
      omega

/-- **A block is inserted** into a sector that is not valid or has its tag. -/
theorem insertBlock_spec (h : Inv p t) (isSecure : Bool) {blk : SectorSubBlk}
    (hi : t.secBlks[i]? = some sector) (hblk : sector.blks[p.extractSectorOffset addr]? = some blk)
    (hinvalid : blk.valid = false)
    (hmatch : sector.isValid = true → sector.matchTag (p.extractTag addr) isSecure = true)
    (hroom : sector.numValid < 255) (htag : p.extractTag addr ≠ MaxAddr)
    (hfits : p.extractTag addr * 2 ^ p.tagShift < 2 ^ 64)
    (hset : (i / p.assoc) <<< p.setShift < 2 ^ 32)
    (hdistinct : ∀ {j : ℕ} {other : SectorBlk}, t.secBlks[j]? = some other → j ≠ i →
      i / p.assoc = j / p.assoc → other.isValid = true →
        ¬ (p.extractTag addr = other.tag ∧ isSecure = other.secure)) :
    ∃ t', insertBlock p t addr isSecure i = .ok t' ∧ Inv p t' := by
  obtain ⟨sector', hok, hwf, hvalid', htag', hsec'⟩ :=
    SectorBlk.insert_spec (h.sectors hi) hblk hinvalid hmatch hroom htag hfits
  have hlt : i < t.secBlks.length := (List.getElem?_eq_some_iff.mp hi).choose
  have huse := h.inUse
  have hcount := countP_set_isValid hi sector'
  rw [hvalid'] at hcount
  have hle : (t.secBlks.set i sector').countP (·.isValid) ≤ p.numSectors := by
    have hlength : (t.secBlks.set i sector').length = p.numSectors := by
      simp [h.length_secBlks]
    rw [← hlength]
    exact List.countP_le_length
  have hdistinct' : sector'.isValid = true → ∀ {j : ℕ} {other : SectorBlk},
      t.secBlks[j]? = some other → j ≠ i → i / p.assoc = j / p.assoc → other.isValid = true →
        ¬ (sector'.tag = other.tag ∧ sector'.secure = other.secure) := by
    intro _ j other hj hne hsame hvj
    rw [htag', hsec']
    exact hdistinct hj hne hsame hvj
  cases hv : sector.isValid with
  | true =>
    refine ⟨{ secBlks := t.secBlks.set i sector', tagsInUse := t.tagsInUse }, ?_,
      h.replace hi hwf hdistinct' (fun _ => hset) (by simp [hv, hvalid'])⟩
    refine bind_eq_ok.mpr ⟨sector, orFail_eq_ok.mpr hi, ?_⟩
    simp only [hv]
    exact bind_eq_ok.mpr ⟨(), require_ok rfl, bind_eq_ok.mpr ⟨sector', hok, rfl⟩⟩
  | false =>
    refine ⟨{ secBlks := t.secBlks.set i sector', tagsInUse := t.tagsInUse + 1 }, ?_,
      h.replace hi hwf hdistinct' (fun _ => hset) (by simp [hv, hvalid'])⟩
    rw [hv] at hcount
    have hroom' : t.tagsInUse + 1 ≤ (p.numSectors : ℤ) := by
      simp only [Bool.toNat_false, Bool.toNat_true] at hcount
      omega
    refine bind_eq_ok.mpr ⟨sector, orFail_eq_ok.mpr hi, ?_⟩
    simp only [hv]
    exact bind_eq_ok.mpr ⟨(), require_ok (by simpa using hroom'),
      bind_eq_ok.mpr ⟨sector', hok, rfl⟩⟩

/-! ## Lookups -/

/-- Whether the block at `offset` of sector `i` is valid and has the tag. -/
def hits (t : SectorTags) (offset tag : ℕ) (isSecure : Bool) (i : ℕ) : Bool :=
  t.secBlks[i]?.any fun sector => sector.blks[offset]?.any fun blk =>
    blk.valid && decide (sector.tag = tag) && decide (sector.secure = isSecure)

theorem hits_iff {tag : ℕ} : hits t offset tag isSecure i = true ↔
    ∃ sector blk, t.secBlks[i]? = some sector ∧ sector.blks[offset]? = some blk ∧
      blk.valid = true ∧ sector.tag = tag ∧ sector.secure = isSecure := by
  unfold hits
  cases hs : t.secBlks[i]? with
  | none => simp
  | some sector =>
    cases hb : sector.blks[offset]? with
    | none => simp [hb]
    | some blk => simp [hb, and_assoc]

/-- A lookup does not fail, and finds the first block that hits. -/
theorem findIn_eq (h : Inv p t) (hoffset : offset < p.numBlocksPerSector) (tag : ℕ)
    (isSecure : Bool) (entries : List ℕ) (hentries : ∀ i ∈ entries, i < p.numSectors) :
    findIn t offset tag isSecure entries
      = .ok ((entries.find? (hits t offset tag isSecure)).map fun i => (i, offset)) := by
  induction entries with
  | nil => rfl
  | cons i entries ih =>
    have hi : i < t.secBlks.length := by
      rw [h.length_secBlks]
      exact hentries i (by simp)
    have hsector : t.secBlks[i]? = some t.secBlks[i] := List.getElem?_eq_getElem hi
    have hwf := h.sectors hsector
    have hlt : offset < t.secBlks[i].blks.length := by rwa [hwf.length_blks]
    have hblk : t.secBlks[i].blks[offset]? = some t.secBlks[i].blks[offset] :=
      List.getElem?_eq_getElem hlt
    have hmatch := SectorBlk.matchSubBlk_eq hwf (List.getElem_mem hlt) tag isSecure
    have hhits : hits t offset tag isSecure i = (t.secBlks[i].blks[offset].valid &&
        decide (t.secBlks[i].tag = tag) && decide (t.secBlks[i].secure = isSecure)) := by
      simp [hits, hsector, hblk]
    rw [← hhits] at hmatch
    refine bind_eq_ok.mpr ⟨_, orFail_eq_ok.mpr hsector, bind_eq_ok.mpr ⟨_, orFail_eq_ok.mpr hblk,
      bind_eq_ok.mpr ⟨_, hmatch, ?_⟩⟩⟩
    cases hv : hits t offset tag isSecure i with
    | true =>
      rw [if_pos rfl, List.find?_cons_of_pos hv]
      rfl
    | false =>
      rw [if_neg (by simp), List.find?_cons_of_neg (by simp [hv])]
      exact ih fun j hj => hentries j (by simp [hj])

variable {a b s : ℕ} (hp : p.Sized a b s)
include hp

theorem entries_lt (addr : ℕ) : ∀ i ∈ p.getPossibleEntries addr, i < p.numSectors := by
  intro i hi
  apply hp.lt_numSectors
  rw [hp.mem_getPossibleEntries.mp hi]
  exact hp.extractSet_lt addr

theorem findBlock_eq (h : Inv p t) (addr : ℕ) (isSecure : Bool) :
    findBlock p t addr isSecure
      = .ok (((p.getPossibleEntries addr).find?
          (hits t (p.extractSectorOffset addr) (p.extractTag addr) isSecure)).map
            fun i => (i, p.extractSectorOffset addr)) :=
  h.findIn_eq (hp.extractSectorOffset_lt addr) _ isSecure _ (entries_lt hp addr)

/-- Two sectors of a set that have the tag are one. -/
theorem hits_unique (h : Inv p t) {offset' j : ℕ} {tag : ℕ} (hi : i ∈ p.getPossibleEntries addr)
    (hj : j ∈ p.getPossibleEntries addr) (hhit : hits t offset tag isSecure i = true)
    (hhit' : hits t offset' tag isSecure j = true) : i = j := by
  obtain ⟨si, bi, hsi, hbi, hvi, hti, hci⟩ := hits_iff.mp hhit
  obtain ⟨sj, bj, hsj, hbj, hvj, htj, hcj⟩ := hits_iff.mp hhit'
  have hset : i / p.assoc = j / p.assoc :=
    (hp.mem_getPossibleEntries.mp hi).trans (hp.mem_getPossibleEntries.mp hj).symm
  exact h.distinct hsi hsj hset
    (SectorBlk.isValid_of_mem (h.sectors hsi) (List.mem_of_getElem? hbi) hvi)
    (SectorBlk.isValid_of_mem (h.sectors hsj) (List.mem_of_getElem? hbj) hvj)
    (hti.trans htj.symm) (hci.trans hcj.symm)

omit hp in
/-- An address that is cached in a block is one that the block hits. -/
theorem hits_of_cachedIn (h : Inv p t) (hc : CachedIn p t i offset addr isSecure) :
    hits t offset (p.extractTag addr) isSecure i = true := by
  obtain ⟨-, -, sector, blk, hsector, hblk, hmatch⟩ := hc
  rw [SectorBlk.matchSubBlk_eq (h.sectors hsector) (List.mem_of_getElem? hblk)] at hmatch
  have hand := Except.ok.inj hmatch
  simp only [Bool.and_eq_true, decide_eq_true_eq] at hand
  exact hits_iff.mpr ⟨sector, blk, hsector, hblk, hand.1.1, hand.1.2, hand.2⟩

/-- **The invariant gives the agreement of all views.** -/
theorem consistent (h : Inv p t) : Consistent p t where
  counter sector hsector := by
    obtain ⟨i, hi⟩ := List.mem_iff_getElem?.mp hsector
    exact (h.sectors hi).counter
  tags sector hsector := by
    obtain ⟨i, hi⟩ := List.mem_iff_getElem?.mp hsector
    exact (h.sectors hi).tags
  once addr isSecure i offset j offset' hi hj := by
    refine ⟨?_, hi.2.1.trans hj.2.1.symm⟩
    exact hits_unique hp h hi.1 hj.1 (hits_of_cachedIn h hi) (hits_of_cachedIn h hj)
  found i offset sector blk hsector hblk hvalid := by
    have hwf := h.sectors hsector
    have hsv := SectorBlk.isValid_of_mem hwf (List.mem_of_getElem? hblk) hvalid
    have hoffset : offset < p.numBlocksPerSector := by
      rw [← hwf.length_blks]
      exact (List.getElem?_eq_some_iff.mp hblk).choose
    have hlt : i < p.numSectors := by
      rw [← h.length_secBlks]
      exact (List.getElem?_eq_some_iff.mp hsector).choose
    have hset : i / p.assoc < p.numSets := (Nat.div_lt_iff_lt_mul hp.assoc_pos).mpr hlt
    obtain ⟨htag, hset', hoff⟩ := hp.regenerate_spec (hwf.tag_fits hsv)
      (h.set_fits hsector hsv) hset hoffset
    have hsec := (hwf.tags blk (List.mem_of_getElem? hblk) hvalid).2
    have hhit : hits t offset sector.tag blk.secure i = true :=
      hits_iff.mpr ⟨sector, blk, hsector, hblk, hvalid, rfl, hsec.symm⟩
    have hmem : i ∈ p.getPossibleEntries (regenerateBlkAddr p sector i offset) :=
      hp.mem_getPossibleEntries.mpr hset'.symm
    rw [findBlock_eq hp h, htag, hoff]
    have hfind : (p.getPossibleEntries (regenerateBlkAddr p sector i offset)).find?
        (hits t offset sector.tag blk.secure) = some i := by
      cases hf : (p.getPossibleEntries (regenerateBlkAddr p sector i offset)).find?
          (hits t offset sector.tag blk.secure) with
      | none => exact absurd hhit (by simpa using List.find?_eq_none.mp hf i hmem)
      | some j =>
        have hj := List.find?_some hf
        rw [hits_unique hp h (List.mem_of_find?_eq_some hf) hmem hj hhit]
    rw [hfind]
    rfl
  inUse := by
    rw [h.inUse]
    congr 1
    apply List.countP_congr
    intro sector hsector
    obtain ⟨i, hi⟩ := List.mem_iff_getElem?.mp hsector
    rw [SectorBlk.isValid_iff (h.sectors hi), List.any_eq_true]
    exact List.countP_pos_iff

/-! ## Misses -/

/-- A miss that has found no block finds none in any sector of the set. -/
theorem no_hits_of_miss (h : Inv p t) (hmiss : findBlock p t addr isSecure = .ok none) :
    ∀ i ∈ p.getPossibleEntries addr,
      hits t (p.extractSectorOffset addr) (p.extractTag addr) isSecure i = false := by
  rw [findBlock_eq hp h] at hmiss
  have hnone := Option.map_eq_none_iff.mp (Except.ok.inj hmiss)
  intro i hi
  simpa using List.find?_eq_none.mp hnone i hi

omit hp in
/-- The victim's sector is one of the set; it has the tag, or no valid sector of the set has it. -/
theorem victimSector_spec (t : SectorTags) (addr : ℕ) {way : ℕ} (isSecure : Bool)
    (hway : way < p.assoc) :
    victimSector p t addr isSecure way ∈ p.getPossibleEntries addr ∧
      (sectorMatches t (p.extractTag addr) isSecure (victimSector p t addr isSecure way) = true ∨
        ∀ j ∈ p.getPossibleEntries addr,
          sectorMatches t (p.extractTag addr) isSecure j = false) := by
  unfold victimSector
  cases hf : (p.getPossibleEntries addr).find?
      (sectorMatches t (p.extractTag addr) isSecure) with
  | none =>
    refine ⟨List.mem_map.mpr ⟨way, List.mem_range.mpr hway, rfl⟩, .inr fun j hj => ?_⟩
    simpa using List.find?_eq_none.mp hf j hj
  | some i => exact ⟨List.mem_of_find?_eq_some hf, .inl (List.find?_some hf)⟩

omit hp in
theorem sectorMatches_iff {tag : ℕ} :
    sectorMatches t tag isSecure i = true ↔
      ∃ sector, t.secBlks[i]? = some sector ∧ sector.matchTag tag isSecure = true := by
  simp [sectorMatches, Option.any_eq_true]

/-- The sector of the victim, and the victim in it. -/
theorem victim_exists (h : Inv p t) (hentry : i ∈ p.getPossibleEntries addr) :
    ∃ sector blk, t.secBlks[i]? = some sector ∧
      sector.blks[p.extractSectorOffset addr]? = some blk := by
  have hlt : i < t.secBlks.length := by
    rw [h.length_secBlks]
    exact entries_lt hp addr i hentry
  have hsector : t.secBlks[i]? = some t.secBlks[i] := List.getElem?_eq_getElem hlt
  have hoffset : p.extractSectorOffset addr < t.secBlks[i].blks.length := by
    rw [(h.sectors hsector).length_blks]
    exact hp.extractSectorOffset_lt addr
  exact ⟨_, _, hsector, List.getElem?_eq_getElem hoffset⟩

/-- A miss in a sector that has the tag. -/
theorem miss_matching (h : Inv p t) {way : ℕ} (hlegal : Legal p t (.miss addr isSecure way))
    (hroom : HasRoom p t (.miss addr isSecure way))
    (hentry : victimSector p t addr isSecure way ∈ p.getPossibleEntries addr)
    (hmatch : sectorMatches t (p.extractTag addr) isSecure
      (victimSector p t addr isSecure way) = true) :
    ∃ t', step p t (.miss addr isSecure way) = .ok t' ∧ Inv p t' := by
  obtain ⟨haddr, hmiss, -⟩ := hlegal
  obtain ⟨hcounter, hset⟩ := hroom
  obtain ⟨hfits, hmax⟩ := hp.extractTag_fits haddr
  have hno := no_hits_of_miss hp h hmiss _ hentry
  have hsame := hp.mem_getPossibleEntries.mp hentry
  obtain ⟨sector, blk, hsector, hblk⟩ := victim_exists hp h hentry
  obtain ⟨sector', hsector', htag⟩ := sectorMatches_iff.mp hmatch
  obtain rfl := Option.some.inj (hsector.symm.trans hsector')
  have hparts := htag
  simp only [SectorBlk.matchTag, Bool.and_eq_true, decide_eq_true_eq] at hparts
  have hinvalid : blk.valid = false := by
    by_contra hv
    simp only [Bool.not_eq_false] at hv
    have hhit := hits_iff.mpr ⟨sector, blk, hsector, hblk, hv, hparts.1.2, hparts.2⟩
    rw [hno] at hhit
    cases hhit
  have hfind : findVictim p t addr isSecure way
      = .ok (victimSector p t addr isSecure way, []) := by
    refine bind_eq_ok.mpr ⟨sector, orFail_eq_ok.mpr hsector,
      bind_eq_ok.mpr ⟨blk, orFail_eq_ok.mpr hblk, ?_⟩⟩
    rw [if_pos htag]
    exact bind_eq_ok.mpr ⟨(), require_ok (by rw [hinvalid]; rfl), rfl⟩
  obtain ⟨t', hok, hinv⟩ := h.insertBlock_spec isSecure hsector hblk hinvalid (fun _ => htag)
    (hcounter sector hsector htag) hmax hfits (by rwa [hsame]) (by
      rintro j other hj hne hjset hvj ⟨htag', hsec'⟩
      exact hne (h.distinct hsector hj hjset hparts.1.1 hvj (hparts.1.2.trans htag')
        (hparts.2.trans hsec')).symm)
  exact ⟨t', bind_eq_ok.mpr ⟨_, hfind, bind_eq_ok.mpr ⟨t, rfl, hok⟩⟩, hinv⟩

/-- A miss in a set where no sector has the tag: a whole sector is evicted. -/
theorem miss_replacing (h : Inv p t) {way : ℕ} (hlegal : Legal p t (.miss addr isSecure way))
    (hroom : HasRoom p t (.miss addr isSecure way))
    (hentry : victimSector p t addr isSecure way ∈ p.getPossibleEntries addr)
    (hmatch : ∀ j ∈ p.getPossibleEntries addr,
      sectorMatches t (p.extractTag addr) isSecure j = false) :
    ∃ t', step p t (.miss addr isSecure way) = .ok t' ∧ Inv p t' := by
  obtain ⟨hfits, hmax⟩ := hp.extractTag_fits hlegal.1
  have hsame := hp.mem_getPossibleEntries.mp hentry
  obtain ⟨sector, blk, hsector, hblk⟩ := victim_exists hp h hentry
  have hnot : sector.matchTag (p.extractTag addr) isSecure = false := by
    by_contra hm
    simp only [Bool.not_eq_false] at hm
    have hyes := sectorMatches_iff.mpr ⟨sector, hsector, hm⟩
    rw [hmatch _ hentry] at hyes
    cases hyes
  have hfind : findVictim p t addr isSecure way
      = .ok (victimSector p t addr isSecure way, sector.validOffsets) := by
    refine bind_eq_ok.mpr ⟨sector, orFail_eq_ok.mpr hsector,
      bind_eq_ok.mpr ⟨blk, orFail_eq_ok.mpr hblk, ?_⟩⟩
    rw [if_neg (by simp [hnot])]
    rfl
  obtain ⟨t₁, sector₁, hevict, hinv₁, hsec₁, hnum₁⟩ := evict_spec sector.validOffsets h hsector
    SectorBlk.nodup_validOffsets fun offset ho => SectorBlk.mem_validOffsets.mp ho
  have hzero : sector₁.numValid = 0 := by
    rw [SectorBlk.length_validOffsets] at hnum₁
    omega
  have hlt : victimSector p t addr isSecure way < t.secBlks.length :=
    (List.getElem?_eq_some_iff.mp hsector).choose
  have hsector₁ : t₁.secBlks[victimSector p t addr isSecure way]? = some sector₁ := by
    rw [hsec₁, List.getElem?_set_self hlt]
  obtain ⟨sector₂, blk₁, hsector₂, hblk₁⟩ := victim_exists hp hinv₁ hentry
  obtain rfl := Option.some.inj (hsector₁.symm.trans hsector₂)
  have hinvalid : blk₁.valid = false := by
    simpa using List.countP_eq_zero.mp hzero blk₁ (List.mem_of_getElem? hblk₁)
  have hgone : ¬ sector₁.isValid = true := by
    rw [SectorBlk.isValid_iff (hinv₁.sectors hsector₁)]
    omega
  obtain ⟨t', hok, hinv⟩ := hinv₁.insertBlock_spec isSecure hsector₁ hblk₁ hinvalid
    (fun hv => absurd hv hgone) (by omega) hmax hfits (by rw [hsame]; exact hroom.2) (by
      rintro j other hj hne hjset hvj ⟨htag, hsec⟩
      rw [hsec₁, List.getElem?_set_ne hne.symm] at hj
      have hm : other.matchTag (p.extractTag addr) isSecure = true := by
        simp [SectorBlk.matchTag, hvj, htag, hsec]
      have hyes := sectorMatches_iff.mpr ⟨other, hj, hm⟩
      rw [hmatch j (hp.mem_getPossibleEntries.mpr (hjset.symm.trans hsame))] at hyes
      cases hyes)
  exact ⟨t', bind_eq_ok.mpr ⟨_, hfind, bind_eq_ok.mpr ⟨t₁, hevict, hok⟩⟩, hinv⟩

/-- **Every operation succeeds and keeps the invariant.** -/
theorem step_spec (h : Inv p t) {op : Op} (hlegal : Legal p t op) (hroom : HasRoom p t op) :
    ∃ t', step p t op = .ok t' ∧ Inv p t' := by
  cases op with
  | miss addr isSecure way =>
    obtain ⟨hentry, hmatch | hmatch⟩ :=
      victimSector_spec t addr isSecure hlegal.2.2
    · exact miss_matching hp h hlegal hroom hentry hmatch
    · exact miss_replacing hp h hlegal hroom hentry hmatch
  | hit addr isSecure =>
    exact ⟨t, bind_eq_ok.mpr ⟨_, findBlock_eq hp h addr isSecure, rfl⟩, h⟩
  | invalidate i offset =>
    obtain ⟨sector, blk, hsector, hblk, hvalid⟩ := hlegal
    obtain ⟨t', -, hok, hinv, -⟩ := h.invalidate_spec hsector hblk hvalid
    exact ⟨t', hok, hinv⟩

end Inv

/-! ## Runs -/

theorem inv_tagsInit (p : Params) : Inv p (tagsInit p) := by
  have hinvalid : ({ blks := List.replicate p.numBlocksPerSector {} } : SectorBlk).isValid
      = false := rfl
  have hget {i : ℕ} {sector : SectorBlk} (hi : (tagsInit p).secBlks[i]? = some sector) :
      sector = { blks := List.replicate p.numBlocksPerSector {} } :=
    List.eq_of_mem_replicate (List.mem_of_getElem? hi)
  refine ⟨by simp [tagsInit], ?_, ?_, ?_, ?_⟩
  · intro i sector hi
    obtain rfl := hget hi
    have hnum : ({ blks := List.replicate p.numBlocksPerSector {} } : SectorBlk).numValid = 0 := by
      simp [SectorBlk.numValid, List.countP_replicate]
    refine ⟨by simp, hnum.symm, by omega, ?_, ?_, fun _ => rfl, fun hv => ?_⟩
    · intro blk hblk hv
      obtain rfl := List.eq_of_mem_replicate hblk
      cases hv
    · intro blk hblk _
      obtain rfl := List.eq_of_mem_replicate hblk
      rfl
    · rw [hinvalid] at hv
      cases hv
  · intro i j sector sector' hi _ _ hv
    obtain rfl := hget hi
    rw [hinvalid] at hv
    cases hv
  · simp [tagsInit, List.countP_replicate, hinvalid]
  · intro i sector hi hv
    obtain rfl := hget hi
    rw [hinvalid] at hv
    cases hv

/-- **Sector tags stay consistent.**  A run of legal operations that have room, on tags that the
constructors accept, fails nowhere and leaves all views of the state in agreement. -/
theorem sector_tags_consistent {p : Params} (hp : p.Accepted) {ops : List Op}
    (h : Admitted (fun t op => Legal p t op ∧ HasRoom p t op) (step p) (tagsInit p) ops) :
    ∃ t, run (step p) (tagsInit p) ops = .ok t ∧ Consistent p t := by
  obtain ⟨a, b, s, hsized⟩ := hp.sized
  obtain ⟨t, hrun, hinv⟩ := run_total (P := Inv p)
    (fun t op hinv hadm => hinv.step_spec hsized hadm.1 hadm.2) (inv_tagsInit p) h
  exact ⟨t, hrun, hinv.consistent hsized⟩

instance (p : Params) (t : SectorTags) : (op : Op) → Decidable (Legal p t op)
  | .miss _ _ _ => inferInstanceAs (Decidable (_ ∧ _ ∧ _))
  | .hit _ _ => inferInstanceAs (Decidable (_ < _))
  | .invalidate i offset =>
      decidable_of_iff (∃ sector ∈ t.secBlks[i]?, ∃ blk ∈ sector.blks[offset]?, blk.valid = true)
        (by simp [Legal])

instance (p : Params) (t : SectorTags) : (op : Op) → Decidable (HasRoom p t op)
  | .miss addr isSecure way => inferInstanceAs (Decidable
      ((∀ sector ∈ t.secBlks[victimSector p t addr isSecure way]?, _ → sector.numValid < 255) ∧ _))
  | .hit _ _ | .invalidate _ _ => .isTrue trivial

/-- Both blocks of a sector come in, one is hit and the other goes; then a sector with another tag
takes the place of what is left. -/
theorem sector_tags_consistent_replaced :
    ∃ t, run (step ⟨4, 2, 2, 1⟩) (tagsInit ⟨4, 2, 2, 1⟩) [.miss 12 true 0, .miss 8 true 0,
        .hit 12 true, .invalidate 1 0, .miss 24 true 0] = .ok t ∧ Consistent ⟨4, 2, 2, 1⟩ t := by
  apply sector_tags_consistent
  · exact ⟨by decide, by decide, by decide, by decide, by decide, by decide, by decide⟩
  · decide +kernel

/-! ## A counter that wraps -/

/-- One sector of 256 blocks. -/
def wide : Params := ⟨4, 256, 1, 1⟩

/-- The blocks of the sector after the first `n` have come in. -/
def filledBlks (n : ℕ) : List SectorSubBlk :=
  List.replicate n { valid := true, tag := 0 } ++ List.replicate (256 - n) ({} : SectorSubBlk)

/-- The sector after its first `n` blocks have come in. -/
def filledSector (n : ℕ) : SectorBlk :=
  { validCounter := n % 2 ^ 8, tag := if n = 0 then MaxAddr else 0, blks := filledBlks n }

/-- The tags after the first `n` blocks of the sector have come in. -/
def filled (n : ℕ) : SectorTags :=
  { secBlks := [filledSector n], tagsInUse := if n = 0 then 0 else 1 }

theorem wide_sized : wide.Sized 2 8 0 :=
  ⟨rfl, rfl, rfl, by decide, by decide, by decide, by decide⟩

variable {n : ℕ}

theorem wide_address (hn : n < 256) :
    wide.extractTag (4 * n) = 0 ∧ wide.extractSet (4 * n) = 0 ∧
      wide.extractSectorOffset (4 * n) = n := by
  rw [wide_sized.extractTag, wide_sized.extractSet, wide_sized.extractSectorOffset]
  omega

theorem filledBlks_get (hn : n < 256) : (filledBlks n)[n]? = some {} := by
  unfold filledBlks
  rw [List.getElem?_append_right (by simp)]
  simp [hn]

theorem filledBlks_set (hn : n < 256) :
    (filledBlks n).set n { valid := true, tag := 0 } = filledBlks (n + 1) := by
  unfold filledBlks
  rw [List.set_append_right _ _ (by simp), show 256 - n = (256 - (n + 1)) + 1 by omega,
    List.replicate_succ, List.replicate_succ']
  simp

theorem filledSector_isValid (hpos : 0 < n) (hn : n < 256) :
    (filledSector n).isValid = true := by
  apply decide_eq_true
  change 0 < n % 2 ^ 8
  omega

theorem filledSector_matchTag (hpos : 0 < n) (hn : n < 256) :
    (filledSector n).matchTag 0 false = true := by
  rw [SectorBlk.matchTag, filledSector_isValid hpos hn]
  simp [filledSector, hpos.ne']

theorem filledSector_numValid (n : ℕ) : (filledSector n).numValid = n := by
  simp [filledSector, filledBlks, SectorBlk.numValid, List.countP_append, List.countP_replicate]

/-- The next block is missing. -/
theorem legal_filled (hn : n < 256) :
    Legal wide (filled n) (.miss (4 * n) false 0) := by
  obtain ⟨htag, hset, hoffset⟩ := wide_address hn
  refine ⟨by omega, ?_, by decide⟩
  rw [findBlock, htag, hoffset, Params.getPossibleEntries, hset]
  exact bind_eq_ok.mpr ⟨filledSector n, rfl,
    bind_eq_ok.mpr ⟨{}, orFail_eq_ok.mpr (filledBlks_get hn), rfl⟩⟩

/-- It goes into the one sector, which it does not have to share with another tag. -/
theorem findVictim_filled (hn : n < 256) :
    findVictim wide (filled n) (4 * n) false 0 = .ok (0, []) := by
  obtain ⟨htag, hset, hoffset⟩ := wide_address hn
  have hvictim : victimSector wide (filled n) (4 * n) false 0 = 0 := by
    rw [victimSector, Params.getPossibleEntries, hset]
    change ((List.find? _ [0]).getD 0) = 0
    rw [List.find?_singleton]
    split <;> rfl
  rw [findVictim, hvictim, hoffset, htag]
  refine bind_eq_ok.mpr ⟨filledSector n, rfl,
    bind_eq_ok.mpr ⟨{}, orFail_eq_ok.mpr (filledBlks_get hn), ?_⟩⟩
  rcases Nat.eq_zero_or_pos n with rfl | hpos
  · rfl
  · rw [if_pos (filledSector_matchTag hpos hn)]
    rfl

/-- The counter goes up, and starts again after 255. -/
theorem insertBlock_filled (hn : n < 256) :
    insertBlock wide (filled n) (4 * n) false 0 = .ok (filled (n + 1)) := by
  obtain ⟨htag, -, hoffset⟩ := wide_address hn
  have hinsert : (filledSector n).insert n 0 false = .ok (filledSector (n + 1)) := by
    refine bind_eq_ok.mpr ⟨{}, orFail_eq_ok.mpr (filledBlks_get hn),
      bind_eq_ok.mpr ⟨(), rfl, ?_⟩⟩
    rcases Nat.eq_zero_or_pos n with rfl | hpos
    · refine bind_eq_ok.mpr ⟨(), rfl, congrArg Except.ok ?_⟩
      simp [filledSector, SectorBlk.insertTag, SectorBlk.validateSubBlk, SectorBlk.isValid, MaxAddr,
        ← filledBlks_set (show 0 < 256 by decide)]
    · refine bind_eq_ok.mpr ⟨(), require_ok ?_, congrArg Except.ok ?_⟩
      · rw [filledSector_matchTag hpos hn, Bool.not_true, Bool.and_false, Bool.not_false]
      · have hkept : (filledSector n).insertTag 0 false = filledSector n := by
          rw [SectorBlk.insertTag, filledSector_isValid hpos hn]
          rfl
        rw [hkept]
        simp [filledSector, SectorBlk.validateSubBlk, ← filledBlks_set hn, hpos.ne']
  rw [insertBlock, htag, hoffset]
  refine bind_eq_ok.mpr ⟨filledSector n, rfl, ?_⟩
  rcases Nat.eq_zero_or_pos n with rfl | hpos
  · exact bind_eq_ok.mpr ⟨(), rfl, bind_eq_ok.mpr ⟨_, hinsert, rfl⟩⟩
  · rw [filledSector_isValid hpos hn]
    refine bind_eq_ok.mpr ⟨(), rfl, bind_eq_ok.mpr ⟨_, hinsert, congrArg Except.ok ?_⟩⟩
    simp [filled, hpos.ne']

theorem reached_filled (hn : n ≤ 256) :
    Reached (Legal wide) (step wide) (tagsInit wide) (filled n) := by
  induction n with
  | zero => exact .refl _ _ _
  | succ n ih =>
    have hstep : step wide (filled n) (.miss (4 * n) false 0) = .ok (filled (n + 1)) :=
      bind_eq_ok.mpr ⟨_, findVictim_filled hn,
        bind_eq_ok.mpr ⟨filled n, rfl, insertBlock_filled hn⟩⟩
    exact (ih (by omega)).step (legal_filled hn) hstep

/-- A sector of 256 valid blocks counts none of them. -/
theorem full_sector_counts_zero :
    ∃ ops t, Admitted (Legal wide) (step wide) (tagsInit wide) ops ∧
      run (step wide) (tagsInit wide) ops = .ok t ∧ ¬ Consistent wide t := by
  obtain ⟨ops, hadm, hrun⟩ := reached_filled (n := 256) le_rfl
  refine ⟨ops, filled 256, hadm, hrun, fun hc => ?_⟩
  have hcounter := hc.counter (filledSector 256) (by simp [filled])
  rw [filledSector_numValid] at hcounter
  exact absurd hcounter (by decide)

end Gem5.Mem.Sectors
