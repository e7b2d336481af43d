/-
# Decompression and the bounds of the dictionary

`decompressValue` dereferences the dictionary for every pattern, at the location that was matched.
A pattern without a match has location -1, which `getMatchLocation` turns into 255.  The first word
of a line meets an empty dictionary, so that CPack, FPC and FPCD stay inside a dictionary of at
least 256 entries only; BaseDelta starts with a zero base and also does on a line of small deltas.
-/
import Gem5.Compressors

namespace Gem5.Compression

open Runs

variable {ν : Type} {w size : ℕ}

/-! ## Patterns of the four compressors -/

/-- What all classes of a factory give, the factory gives. -/
theorem getPattern_prop {P : Pattern ν w → Prop} {classes : List (PatternClass ν w)}
    {last : PatternClass ν w} {bytes : BitVec w} {loc : ℤ}
    (hclasses : classes.Forall fun head => P (head.new bytes loc)) (hlast : P (last.new bytes loc))
    (dictBytes : BitVec w) : P (getPattern classes last bytes dictBytes loc) := by
  unfold getPattern
  rcases hfind : classes.find? (fun head => head.isPattern bytes dictBytes loc) with _ | head
  · rw [hfind]
    exact hlast
  · rw [hfind]
    exact List.forall_iff_forall_mem.mp hclasses head (List.mem_of_find?_eq_some hfind)

theorem CPack.matchLocation_getPattern (bytes dictBytes : BitVec 32) (loc : ℤ) :
    ((CPack.compressor size).getPattern bytes dictBytes loc).matchLocation = loc := by
  refine getPattern_prop (P := fun p => p.matchLocation = loc) ?_ rfl dictBytes
  exact ⟨rfl, rfl, rfl, rfl, rfl⟩

theorem FPC.matchLocation_getPattern (zeroRunSizeBits : ℕ) (bytes dictBytes : BitVec 32) (loc : ℤ) :
    ((FPC.compressor zeroRunSizeBits size).getPattern bytes dictBytes loc).matchLocation = -1 := by
  refine getPattern_prop (P := fun p => p.matchLocation = -1) ?_ rfl dictBytes
  exact ⟨rfl, rfl, rfl, rfl, rfl, rfl, rfl⟩

theorem FPCD.matchLocation_getPattern (bytes dictBytes : BitVec 32) (loc : ℤ) :
    ((FPCD.compressor size).getPattern bytes dictBytes loc).matchLocation = loc := by
  refine getPattern_prop (P := fun p => p.matchLocation = loc) ?_ rfl dictBytes
  exact ⟨rfl, rfl, rfl, rfl, rfl, rfl, rfl, rfl, rfl, rfl, rfl, rfl, rfl, rfl, rfl⟩

/-- An entry that is added as it is. -/
theorem keepsPatterns_of_addEntry {c : Compressor ν w size}
    (h : c.addEntry = fun data p => .ok (data.addEntry p)) : c.KeepsPatterns := by
  intro data p data' hadd
  rw [h] at hadd
  cases hadd
  exact ⟨p, rfl, .refl p⟩

theorem FPC.setRealSize_sameRead {p q : Pattern FPC.PatternNumber 32} {n : ℕ}
    (h : FPC.setRealSize p n = .ok q) : q.SameRead p := by
  obtain ⟨_, -, h⟩ := bind_eq_ok.mp h
  cases h
  exact ⟨rfl, rfl, rfl⟩

theorem FPC.addZero_sameRead {zeroRunSizeBits : ℕ} {back : Option (Pattern FPC.PatternNumber 32)}
    {p q : Pattern FPC.PatternNumber 32} (h : FPC.addZero zeroRunSizeBits back p = .ok q) :
    q.SameRead p := by
  unfold FPC.addZero at h
  split at h
  · exact FPC.setRealSize_sameRead h
  · split_ifs at h
    · exact FPC.setRealSize_sameRead h
    · exact FPC.setRealSize_sameRead h
    · cases h
      exact ⟨rfl, rfl, rfl⟩

/-- The bookkeeping of zero runs does not change how an entry is decompressed. -/
theorem FPC.keepsPatterns (zeroRunSizeBits : ℕ) :
    (FPC.compressor zeroRunSizeBits size).KeepsPatterns := by
  intro data p data' hadd
  change FPC.addEntry zeroRunSizeBits data p = .ok data' at hadd
  unfold FPC.addEntry at hadd
  split_ifs at hadd with hzero
  · obtain ⟨q, hq, hadd⟩ := bind_eq_ok.mp hadd
    cases hadd
    exact ⟨q, rfl, FPC.addZero_sameRead hq⟩
  · cases hadd
    exact ⟨p, rfl, .refl p⟩

/-! ## Adding words -/

theorem Dictionary.push_byCount {e : Failure} {d₁ d₂ d₁' : Dictionary w size} {data₁ : BitVec w}
    (data₂ : BitVec w) (hnum : d₁.numEntries = d₂.numEntries) (h : d₁.push e data₁ = .ok d₁') :
    ∃ d₂', d₂.push e data₂ = .ok d₂' ∧ d₁'.numEntries = d₂'.numEntries := by
  unfold Dictionary.push at h ⊢
  split_ifs at h with hlt
  cases h
  have hlt' : d₂.numEntries < size := hnum ▸ hlt
  rw [dif_pos hlt']
  exact ⟨_, rfl, congrArg (· + 1) hnum⟩

theorem CPack.addsByCount : (CPack.compressor size).AddsByCount := by
  intro d₁ d₂ data₁ data₂ d₁' hnum h
  exact Dictionary.push_byCount data₂ hnum h

theorem FPC.addsByCount (zeroRunSizeBits : ℕ) :
    (FPC.compressor zeroRunSizeBits size).AddsByCount := by
  intro d₁ d₂ data₁ data₂ d₁' hnum h
  cases h
  exact ⟨d₂, rfl, hnum⟩

theorem BaseDelta.addsByCount (deltaSizeBits : ℕ) :
    (BaseDelta.compressor w deltaSizeBits size).AddsByCount := by
  intro d₁ d₂ data₁ data₂ d₁' hnum h
  exact Dictionary.push_byCount data₂ hnum h

theorem FPCD.addsByCount : (FPCD.compressor size).AddsByCount := by
  intro d₁ d₂ data₁ data₂ d₁' hnum h
  change FPCD.addToDictionary d₁ data₁ = .ok d₁' at h
  change ∃ d₂', FPCD.addToDictionary d₂ data₂ = .ok d₂' ∧ _
  unfold FPCD.addToDictionary at h ⊢
  by_cases htwo : d₁.numEntries = 2
  · rw [dif_pos htwo] at h
    rw [dif_pos (hnum ▸ htwo)]
    cases h
    exact ⟨_, rfl, hnum⟩
  · rw [dif_neg htwo] at h
    rw [dif_neg (hnum ▸ htwo)]
    exact Dictionary.push_byCount data₂ hnum h

/-! ## An empty dictionary -/

/-- The first word of a line finds no entry: every index is inside the dictionary exactly when 255
is, or when there is no word. -/
theorem inside_iff_of_empty {c : Compressor ν w size} (hkeep : c.KeepsPatterns)
    (hreset : c.resetDictionary = .ok Dictionary.reset)
    (hloc : ∀ bytes, (c.getPattern bytes 0#w (-1)).matchLocation = -1) {chunks : List (BitVec w)}
    {data : CompData ν w} {d : Dictionary w size} (h : c.compress chunks = .ok (data, d)) :
    (∀ i ∈ dereferenced data, i < size) ↔ chunks = [] ∨ 256 ≤ size := by
  obtain ⟨d₀, hd₀, htrack⟩ := Compressor.track_of_compress hkeep h
  rw [hreset] at hd₀
  cases hd₀
  unfold dereferenced
  constructor
  · intro hinside
    generalize data.entries = patterns at htrack hinside
    cases htrack with
    | nil => exact .inl rfl
    | cons hread _ _ =>
      right
      have hfirst := hinside _ (List.mem_map_of_mem List.mem_cons_self)
      rw [hread.getMatchLocation_eq, Compressor.search_of_valid_nil Dictionary.valid_reset,
        Pattern.getMatchLocation_neg (hloc _)] at hfirst
      omega
  · rintro (rfl | hsize) i hi
    · generalize data.entries = patterns at htrack hi
      cases htrack
      cases hi
    · obtain ⟨p, -, rfl⟩ := List.mem_map.mp hi
      exact p.getMatchLocation_lt.trans_le hsize

/-! ## The zero base -/

namespace BaseDelta

theorem valid_of_resetDictionary {d : Dictionary w size} (h : resetDictionary = .ok d) :
    d.valid = [0#w] := by
  unfold resetDictionary addToDictionary Dictionary.push at h
  split_ifs at h with hlt
  cases h
  obtain ⟨n, rfl⟩ : ∃ n, size = n + 1 := ⟨size - 1, by change 0 < size at hlt; omega⟩
  change ((Vector.replicate (n + 1) 0#w).set 0 0#w (Nat.succ_pos n)).toList.take 1 = [0#w]
  rw [Vector.toList_set, Vector.toList_replicate, List.replicate_succ]
  rfl

variable {deltaSizeBits : ℕ}

theorem getPattern_of_valid {value dictBytes : BitVec w} {loc : ℤ} (hloc : 0 ≤ loc)
    (hvalid : DeltaPattern.isValidDelta deltaSizeBits value dictBytes = true) :
    (compressor w deltaSizeBits size).getPattern value dictBytes loc =
      (patternM deltaSizeBits).new value loc := by
  have hmatch : (patternM deltaSizeBits).isPattern value dictBytes loc = true := by
    change (decide (0 ≤ loc) && _) = true
    rw [hvalid, decide_eq_true hloc]
    rfl
  change getPattern [patternM deltaSizeBits] (patternX deltaSizeBits) value dictBytes loc = _
  unfold getPattern
  rw [List.find?_cons_of_pos (a := patternM deltaSizeBits) hmatch]
  rfl

theorem getPattern_of_not_valid {value dictBytes : BitVec w} {loc : ℤ}
    (hvalid : loc < 0 ∨ DeltaPattern.isValidDelta deltaSizeBits value dictBytes = false) :
    (compressor w deltaSizeBits size).getPattern value dictBytes loc =
      (patternX deltaSizeBits).new value loc := by
  have hmatch : ¬ (patternM deltaSizeBits).isPattern value dictBytes loc = true := by
    change ¬ (decide (0 ≤ loc) && DeltaPattern.isValidDelta deltaSizeBits value dictBytes) = true
    rw [Bool.and_eq_true, decide_eq_true_eq]
    rintro ⟨hloc, hdelta⟩
    rcases hvalid with hneg | hfalse
    · omega
    · rw [hfalse] at hdelta
      cases hdelta
  change getPattern [patternM deltaSizeBits] (patternX deltaSizeBits) value dictBytes loc = _
  unfold getPattern
  rw [List.find?_cons_of_neg (a := patternM deltaSizeBits) hmatch]
  rfl

theorem getPattern_neg (value : BitVec w) :
    (compressor w deltaSizeBits size).getPattern value 0#w (-1) =
      (patternX deltaSizeBits).new value (-1) :=
  getPattern_of_not_valid (.inl (by decide))

theorem getSizeBits_patternM (hdelta : deltaSizeBits < 2 ^ 8) (value : BitVec w) (loc : ℤ) :
    ((patternM deltaSizeBits).new value loc).getSizeBits = deltaSizeBits + 1 := by
  change deltaSizeBits % 2 ^ 8 + baseBits % 2 ^ 8 = _
  have hbase : baseBits = 1 := by decide
  rw [hbase]
  omega

theorem getSizeBits_patternX (hw : w + deltaSizeBits + 1 < 2 ^ 8) (value : BitVec w) (loc : ℤ) :
    ((patternX deltaSizeBits).new value loc).getSizeBits = w + deltaSizeBits + 1 := by
  change w % 2 ^ 8 + (baseBits + deltaSizeBits) % 2 ^ 8 = _
  have hbase : baseBits = 1 := by decide
  rw [hbase]
  omega

/-- With the zero base alone, the search compares two patterns. -/
theorem search_zero {d : Dictionary w size} (hvalid : d.valid = [0#w]) (value : BitVec w) :
    (compressor w deltaSizeBits size).search d value =
      if ((compressor w deltaSizeBits size).getPattern value 0#w 0).getSizeBits <
          ((compressor w deltaSizeBits size).getPattern value 0#w (-1)).getSizeBits
      then (compressor w deltaSizeBits size).getPattern value 0#w 0
      else (compressor w deltaSizeBits size).getPattern value 0#w (-1) := by
  unfold Compressor.search
  rw [hvalid]
  rfl

/-- The word is a delta of the zero base. -/
theorem search_small (hw : w ≤ 64) (hdelta : deltaSizeBits < w) {d : Dictionary w size}
    (hvalid : d.valid = [0#w]) {value : BitVec w}
    (hsmall : DeltaPattern.isValidDelta deltaSizeBits value 0#w = true) :
    (compressor w deltaSizeBits size).search d value = (patternM deltaSizeBits).new value 0 := by
  rw [search_zero hvalid, getPattern_neg, getPattern_of_valid (le_refl 0) hsmall,
    getSizeBits_patternM (by omega), getSizeBits_patternX (by omega), if_pos (by omega)]

/-- The word is a new base. -/
theorem search_large {d : Dictionary w size} (hvalid : d.valid = [0#w]) {value : BitVec w}
    (hlarge : DeltaPattern.isValidDelta deltaSizeBits value 0#w = false) :
    (compressor w deltaSizeBits size).search d value = (patternX deltaSizeBits).new value (-1) := by
  rw [search_zero hvalid, getPattern_neg, getPattern_of_not_valid (.inr hlarge)]
  exact if_neg (lt_irrefl _)

/-- Small deltas all match the zero base, at index 0; the first other word is a new base. -/
theorem inside_of_track (hw : w ≤ 64) (hdelta : deltaSizeBits < w) {d d' : Dictionary w size}
    {chunks : List (BitVec w)} {patterns : List (Pattern PatternNumber w)}
    (h : (compressor w deltaSizeBits size).Track d chunks patterns d') (hvalid : d.valid = [0#w])
    (hpos : 0 < size) :
    (∀ p ∈ patterns, p.getMatchLocation < size) ↔
      (∀ value ∈ chunks, DeltaPattern.isValidDelta deltaSizeBits value 0#w = true) ∨
        256 ≤ size := by
  induction h with
  | nil =>
    constructor
    · intro _
      exact .inl fun _ h => absurd h List.not_mem_nil
    · intro _ _ h
      exact absurd h List.not_mem_nil
  | @cons d d₁ _ value chunks q patterns hread halloc _ ih =>
    rw [List.forall_mem_cons, List.forall_mem_cons, hread.getMatchLocation_eq]
    by_cases hsmall : DeltaPattern.isValidDelta deltaSizeBits value 0#w = true
    · rw [search_small hw hdelta hvalid hsmall] at hread halloc ⊢
      cases halloc
      rw [ih hvalid]
      have hloc : ((patternM deltaSizeBits).new value 0).getMatchLocation = 0 := rfl
      rw [hloc]
      simp [hsmall, hpos]
    · rw [search_large hvalid (Bool.eq_false_of_not_eq_true hsmall),
        Pattern.getMatchLocation_neg rfl]
      constructor
      · rintro ⟨hfirst, -⟩
        exact .inr hfirst
      · rintro (hall | hsize)
        · exact absurd hall.1 hsmall
        · exact ⟨hsize, fun p _ => p.getMatchLocation_lt.trans_le hsize⟩

theorem compress_eq_ok {blkSize : ℕ} {chunks : List (BitVec w)}
    {data : CompData PatternNumber w} {d : Dictionary w size}
    (h : compress w deltaSizeBits size blkSize chunks = .ok (data, d)) :
    ∃ data', (compressor w deltaSizeBits size).compress chunks = .ok (data', d) ∧
      data.entries = data'.entries := by
  obtain ⟨r, hr, h⟩ := bind_eq_ok.mp h
  cases h
  refine ⟨r.1, hr, ?_⟩
  unfold adjustSize
  split_ifs <;> rfl

end BaseDelta

/-! ## The four compressors -/

/-- Decompressing `data` goes through all its entries, whatever lies outside the dictionary, and
the indices that it dereferences are all inside exactly when `P` holds. -/
def InsideIff (c : Compressor ν w size) (data : CompData ν w) (P : Prop) : Prop :=
  (∀ outside, ∃ r, c.decompressEntries outside data.entries = .ok r) ∧
    ((∀ i ∈ dereferenced data, i < size) ↔ P)

theorem cpack_inside {chunks : List (BitVec 32)} {data : CompData CPack.PatternNumber 32}
    {d : Dictionary 32 size} (h : (CPack.compressor size).compress chunks = .ok (data, d)) :
    InsideIff (CPack.compressor size) data (chunks = [] ∨ 256 ≤ size) := by
  have hkeep : (CPack.compressor size).KeepsPatterns := keepsPatterns_of_addEntry rfl
  constructor
  · intro outside
    exact Compressor.decompress_of_compress hkeep CPack.addsByCount outside h
  · exact inside_iff_of_empty hkeep rfl (fun _ => CPack.matchLocation_getPattern _ _ _) h

theorem fpc_inside {zeroRunSizeBits : ℕ} {chunks : List (BitVec 32)}
    {data : CompData FPC.PatternNumber 32} {d : Dictionary 32 size}
    (h : (FPC.compressor zeroRunSizeBits size).compress chunks = .ok (data, d)) :
    InsideIff (FPC.compressor zeroRunSizeBits size) data (chunks = [] ∨ 256 ≤ size) := by
  have hkeep : (FPC.compressor zeroRunSizeBits size).KeepsPatterns :=
    FPC.keepsPatterns zeroRunSizeBits
  constructor
  · intro outside
    exact Compressor.decompress_of_compress hkeep (FPC.addsByCount zeroRunSizeBits) outside h
  · exact inside_iff_of_empty hkeep rfl (fun _ => FPC.matchLocation_getPattern _ _ _ _) h

theorem fpcd_inside {chunks : List (BitVec 32)} {data : CompData FPCD.PatternNumber 32}
    {d : Dictionary 32 size} (h : (FPCD.compressor size).compress chunks = .ok (data, d)) :
    InsideIff (FPCD.compressor size) data (chunks = [] ∨ 256 ≤ size) := by
  have hkeep : (FPCD.compressor size).KeepsPatterns := keepsPatterns_of_addEntry rfl
  constructor
  · intro outside
    exact Compressor.decompress_of_compress hkeep FPCD.addsByCount outside h
  · exact inside_iff_of_empty hkeep rfl (fun _ => FPCD.matchLocation_getPattern _ _ _) h

theorem baseDelta_inside {deltaSizeBits blkSize : ℕ} (hw : w ≤ 64) (hdelta : deltaSizeBits < w)
    {chunks : List (BitVec w)} {data : CompData BaseDelta.PatternNumber w} {d : Dictionary w size}
    (h : BaseDelta.compress w deltaSizeBits size blkSize chunks = .ok (data, d)) :
    InsideIff (BaseDelta.compressor w deltaSizeBits size) data
      ((∀ value ∈ chunks, DeltaPattern.isValidDelta deltaSizeBits value 0#w = true) ∨
        256 ≤ size) := by
  obtain ⟨data', h', hentries⟩ := BaseDelta.compress_eq_ok h
  have hkeep : (BaseDelta.compressor w deltaSizeBits size).KeepsPatterns :=
    keepsPatterns_of_addEntry rfl
  unfold InsideIff dereferenced
  rw [hentries]
  constructor
  · intro outside
    exact Compressor.decompress_of_compress hkeep (BaseDelta.addsByCount _) outside h'
  · obtain ⟨d₀, hreset, htrack⟩ := Compressor.track_of_compress hkeep h'
    have hvalid := BaseDelta.valid_of_resetDictionary hreset
    have hpos : 0 < size := by
      have hlen := congrArg List.length hvalid
      unfold Dictionary.valid at hlen
      rw [List.length_take, Vector.length_toList, List.length_singleton] at hlen
      omega
    rw [← BaseDelta.inside_of_track hw hdelta htrack hvalid hpos, List.forall_mem_map]

/-- **Bounds of the dictionary.**  For a dictionary of `size` entries and every line that CPack, FPC
or FPCD compress, decompression dereferences only indices inside the dictionary exactly when 255 is
inside, or when the line is empty.  BaseDelta's also are when all words are deltas of zero. -/
theorem decompression_inside_iff (size : ℕ) :
    (∀ chunks data d, (CPack.compressor size).compress chunks = .ok (data, d) →
      InsideIff (CPack.compressor size) data (chunks = [] ∨ 256 ≤ size)) ∧
    (∀ zeroRunSizeBits chunks data d,
      (FPC.compressor zeroRunSizeBits size).compress chunks = .ok (data, d) →
        InsideIff (FPC.compressor zeroRunSizeBits size) data (chunks = [] ∨ 256 ≤ size)) ∧
    (∀ chunks data d, (FPCD.compressor size).compress chunks = .ok (data, d) →
      InsideIff (FPCD.compressor size) data (chunks = [] ∨ 256 ≤ size)) ∧
    ∀ w deltaSizeBits blkSize chunks data d, w ≤ 64 → deltaSizeBits < w →
      BaseDelta.compress w deltaSizeBits size blkSize chunks = .ok (data, d) →
        InsideIff (BaseDelta.compressor w deltaSizeBits size) data
          ((∀ value ∈ chunks, DeltaPattern.isValidDelta deltaSizeBits value 0#w = true) ∨
            256 ≤ size) := by
  refine ⟨?_, ?_, ?_, ?_⟩
  · intro chunks data d h
    exact cpack_inside h
  · intro zeroRunSizeBits chunks data d h
    exact fpc_inside h
  · intro chunks data d h
    exact fpcd_inside h
  · intro w deltaSizeBits blkSize chunks data d hw hdelta h
    exact baseDelta_inside hw hdelta h

/-- A line of two small words: BaseDelta matches the zero base at index 0. -/
theorem decompression_inside_small :
    ∃ data d, BaseDelta.compress 64 8 2 16 [3#64, 5#64] = .ok (data, d) ∧
      ∀ i ∈ dereferenced data, i < 2 := by
  have hok : ((BaseDelta.compress 64 8 2 16 [3#64, 5#64]).map fun _ => ()) = .ok () := by decide
  rcases hcompress : BaseDelta.compress 64 8 2 16 [3#64, 5#64] with e | ⟨data, d⟩
  · rw [hcompress] at hok
    cases hok
  · have hiff :=
      (decompression_inside_iff 2).2.2.2 64 8 16 _ data d (by decide) (by decide) hcompress
    have hsmall : ∀ value ∈ [3#64, 5#64], DeltaPattern.isValidDelta 8 value 0#64 = true := by
      simp [DeltaPattern.isValidDelta, Gem5.Base.mask]
    exact ⟨data, d, rfl, hiff.2.mpr (.inl hsmall)⟩

/-- A line of zeros, the dictionary of the default size: CPack's decompression reads the entry of
index 255 for every word. -/
theorem zero_line_outside :
    ((CPack.compressor 64).compress (List.replicate 16 0#32)).map (fun r => dereferenced r.1) =
      .ok (List.replicate 16 255) := by
  decide

end Gem5.Compression
