/-
# Dictionary compressors

Embedding of `mem/cache/compressors/dictionary_compressor.hh` and `dictionary_compressor_impl.hh`.
A word is compressed to the first pattern of a list that it matches, without a dictionary entry or
with one of the valid entries, whichever is smallest; a pattern may add the word to the dictionary.
Decompression walks the patterns and rebuilds the dictionary.

A dictionary entry, the bytes of a word, is kept as the word.  A pattern carries its `decompress`,
which the source overrides in its subclasses, and a `ZeroRun` pattern of FPC the state of its run.
Reading the dictionary outside its bounds has no defined result: it is a parameter `outside` of
decompression.
-/
import Gem5.Bitfield
import Gem5.Runs

namespace Gem5.Base

/-- `sext<N>(val)` -/
def sext (N : ℕ) (val : Addr) : Addr := if val.getLsbD (N - 1) then val ||| ~~~(mask N) else val

/-- `szext<N>(val)` -/
def szext (N : ℕ) (val : Addr) : Addr :=
  if val.getLsbD (N - 1) then val ||| ~~~(mask N) else val &&& mask N

end Gem5.Base

namespace Gem5.Compression

open Gem5.Base Runs

/-! ## The dictionary -/

/-- How compression or decompression stops: an assertion on a full dictionary, a write outside the
dictionary, or a signed overflow. -/
inductive Failure where
  | dictionaryFull
  | outOfBounds
  | signedOverflow
  deriving DecidableEq, Repr

/-- `dictionary` and `numEntries` -/
structure Dictionary (w size : ℕ) where
  entries : Vector (BitVec w) size
  numEntries : ℕ
  numEntries_le : numEntries ≤ size

variable {ν : Type} {w size : ℕ}

/-- The entries that are searched. -/
def Dictionary.valid (d : Dictionary w size) : List (BitVec w) :=
  d.entries.toList.take d.numEntries

/-- `DictionaryCompressor::resetDictionary()` -/
def Dictionary.reset : Dictionary w size :=
  { entries := Vector.replicate size 0#w, numEntries := 0, numEntries_le := Nat.zero_le _ }

/-- `dictionary[numEntries++] = data`, where `e` says how it fails. -/
def Dictionary.push (e : Failure) (d : Dictionary w size) (data : BitVec w) :
    Except Failure (Dictionary w size) :=
  if h : d.numEntries < size then
    .ok { entries := d.entries.set d.numEntries data, numEntries := d.numEntries + 1,
          numEntries_le := h }
  else .error e

/-! ## Patterns -/

/-- The run of a `ZeroRun` pattern. -/
structure ZeroRun where
  runLength : ℕ := 0
  realSize : ℕ := 0

/-- `Pattern` -/
structure Pattern (ν : Type) (w : ℕ) where
  patternNumber : ν
  length : ℕ
  numUnmatchedBits : ℕ
  matchLocation : ℤ
  allocate : Bool
  decompress : BitVec w → BitVec w
  zeroRun : Option ZeroRun := none

/-- The constructor of `Pattern`, which keeps the lengths in 8 bits. -/
def Pattern.new (number : ν) (metadataLength numUnmatchedBits : ℕ) (matchLocation : ℤ)
    (allocate : Bool) (decompress : BitVec w → BitVec w) : Pattern ν w :=
  { patternNumber := number, length := metadataLength % 2 ^ 8,
    numUnmatchedBits := numUnmatchedBits % 2 ^ 8, matchLocation, allocate, decompress }

/-- `getMatchLocation()`, a `uint8_t`. -/
def Pattern.getMatchLocation (p : Pattern ν w) : ℕ := (p.matchLocation % 2 ^ 8).toNat

/-- `getSizeBits()`, which `ZeroRun` overrides. -/
def Pattern.getSizeBits (p : Pattern ν w) : ℕ :=
  match p.zeroRun with
  | some z => z.realSize
  | none => p.numUnmatchedBits + p.length

/-- A class of patterns: its `isPattern(bytes, dict_bytes, match_location)` and its constructor. -/
structure PatternClass (ν : Type) (w : ℕ) where
  isPattern : BitVec w → BitVec w → ℤ → Bool
  new : BitVec w → ℤ → Pattern ν w

/-- `Factory<Head, Tail...>::getPattern`: the first class that matches, or else the last one. -/
def getPattern (classes : List (PatternClass ν w)) (last : PatternClass ν w)
    (bytes dictBytes : BitVec w) (matchLocation : ℤ) : Pattern ν w :=
  ((classes.find? fun head => head.isPattern bytes dictBytes matchLocation).getD last).new bytes
    matchLocation

theorem getPattern_cons (head : PatternClass ν w) (tail : List (PatternClass ν w))
    (last : PatternClass ν w) (bytes dictBytes : BitVec w) (loc : ℤ) :
    getPattern (head :: tail) last bytes dictBytes loc =
      if head.isPattern bytes dictBytes loc = true then head.new bytes loc
      else getPattern tail last bytes dictBytes loc := by
  unfold getPattern
  rw [List.find?_cons]
  cases head.isPattern bytes dictBytes loc <;> rfl

/-- The constructor of `UncompressedPattern`. -/
def UncompressedPattern.new (number : ν) (metadataLength : ℕ) (matchLocation : ℤ)
    (bytes : BitVec w) : Pattern ν w :=
  Pattern.new number metadataLength w matchLocation true fun _ => bytes

/-- `UncompressedPattern::isPattern` -/
def UncompressedPattern.isPattern (_ _ : BitVec w) (_ : ℤ) : Bool := true

/-- The constructor of `MaskedPattern<mask>`. -/
def MaskedPattern.new (mask : BitVec w) (number : ν) (metadataLength : ℕ) (matchLocation : ℤ)
    (bytes : BitVec w) (allocate : Bool := true) : Pattern ν w :=
  Pattern.new number metadataLength (popCount ((~~~mask).setWidth 64)) matchLocation allocate
    fun dictBytes => (bytes &&& ~~~mask) ||| (dictBytes &&& mask)

/-- `MaskedPattern<mask>::isPattern` -/
def MaskedPattern.isPattern (mask bytes dictBytes : BitVec w) (matchLocation : ℤ) : Bool :=
  decide (0 ≤ matchLocation) && (bytes &&& mask) == (dictBytes &&& mask)

/-- The constructor of `MaskedValuePattern<value, mask>`: decompression does not look at the
dictionary. -/
def MaskedValuePattern.new (value mask : BitVec w) (number : ν) (metadataLength : ℕ)
    (matchLocation : ℤ) (bytes : BitVec w) (allocate : Bool := false) : Pattern ν w :=
  let p := MaskedPattern.new mask number metadataLength matchLocation bytes allocate
  { p with decompress := fun _ => p.decompress value }

/-- `MaskedValuePattern<value, mask>::isPattern` -/
def MaskedValuePattern.isPattern (value mask bytes _dictBytes : BitVec w) (_ : ℤ) : Bool :=
  (value &&& mask) == (bytes &&& mask)

/-- `LocatedMaskedPattern<mask, location>::isPattern` -/
def LocatedMaskedPattern.isPattern (mask : BitVec w) (location : ℤ) (bytes dictBytes : BitVec w)
    (matchLocation : ℤ) : Bool :=
  matchLocation == location && MaskedPattern.isPattern mask bytes dictBytes matchLocation

/-- The constructor of `RepeatedValuePattern<RepT>`, with a `RepT` of `r` bits. -/
def RepeatedValuePattern.new (r : ℕ) (number : ν) (metadataLength : ℕ) (matchLocation : ℤ)
    (bytes : BitVec w) (allocate : Bool := true) : Pattern ν w :=
  Pattern.new number metadataLength r matchLocation allocate fun _ =>
    let value := (bytes.setWidth r).setWidth w
    (List.range (w / r)).foldl (fun decompValue _ => decompValue <<< r ||| value) 0#w

/-- `RepeatedValuePattern<RepT>::isPattern` -/
def RepeatedValuePattern.isPattern (r : ℕ) (bytes _dictBytes : BitVec w) (_ : ℤ) : Bool :=
  (List.range (w / r)).all fun i => (bytes >>> (r * i)).setWidth r == bytes.setWidth r

/-- `DeltaPattern<DeltaSizeBits>::isValidDelta` -/
def DeltaPattern.isValidDelta (deltaSizeBits : ℕ) (value base : BitVec w) : Bool :=
  let limit : ℤ :=
    if deltaSizeBits = 0 then 0 else ((Gem5.Base.mask (deltaSizeBits - 1)).setWidth w).toInt
  let delta := (value - base).toInt
  decide (-limit ≤ delta) && decide (delta ≤ limit)

/-- `DeltaPattern<DeltaSizeBits>::isPattern` -/
def DeltaPattern.isPattern (deltaSizeBits : ℕ) (bytes dictBytes : BitVec w) (matchLocation : ℤ) :
    Bool :=
  decide (0 ≤ matchLocation) && isValidDelta deltaSizeBits bytes dictBytes

/-- The constructor of `DeltaPattern<DeltaSizeBits>`. -/
def DeltaPattern.new (deltaSizeBits : ℕ) (number : ν) (metadataLength : ℕ) (matchLocation : ℤ)
    (bytes : BitVec w) : Pattern ν w :=
  Pattern.new number metadataLength deltaSizeBits matchLocation false fun _ => bytes

/-- `SignExtendedPattern<N>::isPattern` -/
def SignExtendedPattern.isPattern (N : ℕ) (bytes _dictBytes : BitVec w) (_ : ℤ) : Bool :=
  bytes == (szext N (bytes.setWidth 64)).setWidth w

/-- The constructor of `SignExtendedPattern<N>`, which keeps `N` bits. -/
def SignExtendedPattern.new (N : ℕ) (number : ν) (metadataLength : ℕ) (bytes : BitVec w)
    (allocate : Bool := false) : Pattern ν w :=
  Pattern.new number metadataLength N (-1) allocate fun _ =>
    (sext N (bytes.setWidth 64 &&& Gem5.Base.mask N)).setWidth w

/-! ## Compression and decompression -/

/-- `CompData` -/
structure CompData (ν : Type) (w : ℕ) where
  sizeBits : ℕ := 0
  entries : List (Pattern ν w) := []

/-- `DictionaryCompressor<T>::CompData::addEntry` -/
def CompData.addEntry (data : CompData ν w) (p : Pattern ν w) : CompData ν w :=
  { sizeBits := data.sizeBits + p.getSizeBits, entries := data.entries ++ [p] }

/-- What a compressor overrides. -/
structure Compressor (ν : Type) (w size : ℕ) where
  getPattern : BitVec w → BitVec w → ℤ → Pattern ν w
  addToDictionary : Dictionary w size → BitVec w → Except Failure (Dictionary w size)
  resetDictionary : Except Failure (Dictionary w size) := .ok Dictionary.reset
  addEntry : CompData ν w → Pattern ν w → Except Failure (CompData ν w) :=
    fun data p => .ok (data.addEntry p)

namespace Compressor

variable (c : Compressor ν w size)

/-- One round of the search through the dictionary: a strictly smaller pattern is kept. -/
def better (bytes : BitVec w) (pattern : Pattern ν w) (entry : BitVec w × ℕ) : Pattern ν w :=
  let tempPattern := c.getPattern bytes entry.1 entry.2
  if tempPattern.getSizeBits < pattern.getSizeBits then tempPattern else pattern

/-- The pattern that `compressValue` chooses. -/
def search (d : Dictionary w size) (bytes : BitVec w) : Pattern ν w :=
  d.valid.zipIdx.foldl (c.better bytes) (c.getPattern bytes 0#w (-1))

/-- A pattern that should allocate adds its word to the dictionary. -/
def allocate (d : Dictionary w size) (p : Pattern ν w) (data : BitVec w) :
    Except Failure (Dictionary w size) :=
  if p.allocate then c.addToDictionary d data else .ok d

/-- `compressValue(data)` -/
def compressValue (d : Dictionary w size) (data : BitVec w) :
    Except Failure (Pattern ν w × Dictionary w size) := do
  let pattern := c.search d data
  let d' ← c.allocate d pattern data
  return (pattern, d')

/-- One chunk of a line. -/
def compressChunk (s : CompData ν w × Dictionary w size) (value : BitVec w) :
    Except Failure (CompData ν w × Dictionary w size) := do
  let r ← c.compressValue s.2 value
  let data ← c.addEntry s.1 r.1
  return (data, r.2)

/-- `compress(chunks)`, with the dictionary at its end. -/
def compress (chunks : List (BitVec w)) : Except Failure (CompData ν w × Dictionary w size) := do
  let d ← c.resetDictionary
  chunks.foldlM c.compressChunk ({}, d)

variable (outside : ℕ → BitVec w)

/-- `*entry_it`: a read of the dictionary, or of what lies outside it. -/
def dereference (d : Dictionary w size) (i : ℕ) : BitVec w := d.entries[i]?.getD (outside i)

/-- `decompressValue(pattern)` -/
def decompressValue (d : Dictionary w size) (p : Pattern ν w) :
    Except Failure (BitVec w × Dictionary w size) := do
  let data := p.decompress (dereference outside d p.getMatchLocation)
  let d' ← c.allocate d p data
  return (data, d')

/-- One entry of a compressed line. -/
def decompressEntry (s : List (BitVec w) × Dictionary w size) (p : Pattern ν w) :
    Except Failure (List (BitVec w) × Dictionary w size) := do
  let r ← c.decompressValue outside s.2 p
  return (s.1 ++ [r.1], r.2)

/-- The loop of `decompress(comp_data, data)`: the words, with the dictionary at its end. -/
def decompressEntries (entries : List (Pattern ν w)) :
    Except Failure (List (BitVec w) × Dictionary w size) := do
  let d ← c.resetDictionary
  entries.foldlM (c.decompressEntry outside) ([], d)

end Compressor

/-- The indices that decompression dereferences, one for each entry. -/
def dereferenced (data : CompData ν w) : List ℕ := data.entries.map Pattern.getMatchLocation

/-! ## The patterns of a line -/

/-- Two patterns are decompressed in the same way. -/
structure Pattern.SameRead (q p : Pattern ν w) : Prop where
  allocate_eq : q.allocate = p.allocate
  matchLocation_eq : q.matchLocation = p.matchLocation
  decompress_eq : q.decompress = p.decompress

theorem Pattern.SameRead.refl (p : Pattern ν w) : p.SameRead p := ⟨rfl, rfl, rfl⟩

theorem Pattern.SameRead.getMatchLocation_eq {q p : Pattern ν w} (h : q.SameRead p) :
    q.getMatchLocation = p.getMatchLocation := by
  unfold Pattern.getMatchLocation
  rw [h.matchLocation_eq]

/-- The match location is kept in eight bits. -/
theorem Pattern.getMatchLocation_lt (p : Pattern ν w) : p.getMatchLocation < 2 ^ 8 := by
  unfold Pattern.getMatchLocation
  omega

/-- Without a match, the location is read back as 255. -/
theorem Pattern.getMatchLocation_neg {p : Pattern ν w} (h : p.matchLocation = -1) :
    p.getMatchLocation = 255 := by
  unfold Pattern.getMatchLocation
  rw [h]
  rfl

namespace Compressor

variable (c : Compressor ν w size)

/-- The patterns to which the words of a line are compressed, from a dictionary to the one at the
end. -/
inductive Track : Dictionary w size → List (BitVec w) → List (Pattern ν w) → Dictionary w size → Prop
  | nil (d : Dictionary w size) : Track d [] [] d
  | cons {d d' d'' : Dictionary w size} {value : BitVec w} {chunks : List (BitVec w)}
      {q : Pattern ν w} {patterns : List (Pattern ν w)} (hread : q.SameRead (c.search d value))
      (halloc : c.allocate d (c.search d value) value = .ok d')
      (h : Track d' chunks patterns d'') : Track d (value :: chunks) (q :: patterns) d''

/-- An entry is added behind the others, and decompressed like its pattern. -/
def KeepsPatterns : Prop :=
  ∀ data p data', c.addEntry data p = .ok data' →
    ∃ q : Pattern ν w, data'.entries = data.entries ++ [q] ∧ q.SameRead p

variable {c}

theorem track_of_foldlM (hkeep : c.KeepsPatterns) (chunks : List (BitVec w)) :
    ∀ (data data' : CompData ν w) (d d' : Dictionary w size),
      chunks.foldlM c.compressChunk (data, d) = .ok (data', d') →
      ∃ patterns, data'.entries = data.entries ++ patterns ∧ c.Track d chunks patterns d' := by
  induction chunks with
  | nil =>
    intro data data' d d' h
    cases h
    exact ⟨[], (List.append_nil _).symm, .nil d⟩
  | cons value chunks ih =>
    intro data data' d d' h
    rw [List.foldlM_cons] at h
    obtain ⟨s, hs, h⟩ := bind_eq_ok.mp h
    obtain ⟨r, hr, hs⟩ := bind_eq_ok.mp hs
    obtain ⟨d₁, halloc, hr⟩ := bind_eq_ok.mp hr
    cases hr
    obtain ⟨data₁, hadd, hs⟩ := bind_eq_ok.mp hs
    cases hs
    obtain ⟨q, hq, hread⟩ := hkeep _ _ _ hadd
    obtain ⟨patterns, hpatterns, htrack⟩ := ih _ _ _ _ h
    refine ⟨q :: patterns, ?_, .cons hread halloc htrack⟩
    rw [hpatterns, hq, List.append_assoc]
    rfl

/-- A compressed line holds the patterns of its words. -/
theorem track_of_compress (hkeep : c.KeepsPatterns) {chunks : List (BitVec w)}
    {data : CompData ν w} {d : Dictionary w size} (h : c.compress chunks = .ok (data, d)) :
    ∃ d₀, c.resetDictionary = .ok d₀ ∧ c.Track d₀ chunks data.entries d := by
  obtain ⟨d₀, hreset, h⟩ := bind_eq_ok.mp h
  obtain ⟨patterns, hpatterns, htrack⟩ := track_of_foldlM hkeep _ _ _ _ _ h
  rw [List.nil_append] at hpatterns
  rw [hpatterns]
  exact ⟨d₀, hreset, htrack⟩

/-- Whether a word can be added, and the number of entries then, depends on the number of entries
alone. -/
def AddsByCount (c : Compressor ν w size) : Prop :=
  ∀ d₁ d₂ data₁ data₂ d₁', d₁.numEntries = d₂.numEntries → c.addToDictionary d₁ data₁ = .ok d₁' →
    ∃ d₂', c.addToDictionary d₂ data₂ = .ok d₂' ∧ d₁'.numEntries = d₂'.numEntries

theorem allocate_byCount (hadd : c.AddsByCount) {d₁ d₂ d₁' : Dictionary w size} {p q : Pattern ν w}
    {data₁ : BitVec w} (data₂ : BitVec w) (hpq : q.allocate = p.allocate)
    (hnum : d₁.numEntries = d₂.numEntries) (h : c.allocate d₁ p data₁ = .ok d₁') :
    ∃ d₂', c.allocate d₂ q data₂ = .ok d₂' ∧ d₁'.numEntries = d₂'.numEntries := by
  unfold allocate at h ⊢
  rw [hpq]
  by_cases hp : p.allocate = true
  · rw [if_pos hp] at h ⊢
    exact hadd _ _ _ _ _ hnum h
  · rw [if_neg hp] at h ⊢
    cases h
    exact ⟨d₂, rfl, hnum⟩

theorem decompress_of_track (hadd : c.AddsByCount) (outside : ℕ → BitVec w)
    {d₁ d' : Dictionary w size} {chunks : List (BitVec w)} {patterns : List (Pattern ν w)}
    (h : c.Track d₁ chunks patterns d') :
    ∀ (words : List (BitVec w)) (d₂ : Dictionary w size), d₁.numEntries = d₂.numEntries →
      ∃ r, patterns.foldlM (c.decompressEntry outside) (words, d₂) = .ok r := by
  induction h with
  | nil =>
    intro words d₂ _
    exact ⟨(words, d₂), rfl⟩
  | @cons d₁ d₁' _ value _ q patterns hread halloc _ ih =>
    intro words d₂ hnum
    let word := q.decompress (dereference outside d₂ q.getMatchLocation)
    obtain ⟨d₂', halloc', hnum'⟩ := allocate_byCount hadd word hread.allocate_eq hnum halloc
    obtain ⟨r, hr⟩ := ih (words ++ [word]) d₂' hnum'
    refine ⟨r, ?_⟩
    rw [List.foldlM_cons]
    refine bind_eq_ok.mpr ⟨(words ++ [word], d₂'), ?_, hr⟩
    refine bind_eq_ok.mpr ⟨(word, d₂'), ?_, rfl⟩
    exact bind_eq_ok.mpr ⟨d₂', halloc', rfl⟩

/-- Decompression goes through all entries of a compressed line. -/
theorem decompress_of_compress (hkeep : c.KeepsPatterns) (hadd : c.AddsByCount)
    (outside : ℕ → BitVec w) {chunks : List (BitVec w)} {data : CompData ν w}
    {d : Dictionary w size} (h : c.compress chunks = .ok (data, d)) :
    ∃ r, c.decompressEntries outside data.entries = .ok r := by
  obtain ⟨d₀, hreset, htrack⟩ := track_of_compress hkeep h
  exact bind_returns hreset (decompress_of_track hadd outside htrack [] d₀ rfl)

/-- A search in an empty dictionary finds no entry. -/
theorem search_of_valid_nil {d : Dictionary w size} (hvalid : d.valid = []) (bytes : BitVec w) :
    c.search d bytes = c.getPattern bytes 0#w (-1) := by
  unfold search
  rw [hvalid]
  rfl

end Compressor

theorem Dictionary.valid_reset : (Dictionary.reset : Dictionary w size).valid = [] := rfl

end Gem5.Compression
