/-
# CPack, FPC, FPCD and BaseDelta

The four dictionary compressors: their patterns in the order of their factories, and how they add a
word to the dictionary (`mem/cache/compressors/cpack.hh`, `fpc.hh`, `fpcd.hh`, `base_delta.hh` and
their sources).
-/
import Gem5.DictionaryCompressor

namespace Gem5.Compression

open Gem5.Base Runs

variable {size : ℕ}

/-! ## CPack -/

namespace CPack

/-- `PatternNumber` -/
inductive PatternNumber where
  | ZZZZ | XXXX | MMMM | MMXX | ZZZX | MMMX
  deriving DecidableEq, Repr

open PatternNumber

/-- `PatternZZZZ` -/
def patternZZZZ : PatternClass PatternNumber 32 where
  isPattern := MaskedValuePattern.isPattern 0#32 0xFFFFFFFF#32
  new := fun bytes loc => MaskedValuePattern.new 0#32 0xFFFFFFFF#32 ZZZZ 2 loc bytes

/-- `PatternXXXX` -/
def patternXXXX : PatternClass PatternNumber 32 where
  isPattern := UncompressedPattern.isPattern
  new := fun bytes loc => UncompressedPattern.new XXXX 2 loc bytes

/-- `PatternMMMM` -/
def patternMMMM : PatternClass PatternNumber 32 where
  isPattern := MaskedPattern.isPattern 0xFFFFFFFF#32
  new := fun bytes loc => MaskedPattern.new 0xFFFFFFFF#32 MMMM 6 loc bytes true

/-- `PatternMMXX` -/
def patternMMXX : PatternClass PatternNumber 32 where
  isPattern := MaskedPattern.isPattern 0xFFFF0000#32
  new := fun bytes loc => MaskedPattern.new 0xFFFF0000#32 MMXX 8 loc bytes true

/-- `PatternZZZX` -/
def patternZZZX : PatternClass PatternNumber 32 where
  isPattern := MaskedValuePattern.isPattern 0#32 0xFFFFFF00#32
  new := fun bytes loc => MaskedValuePattern.new 0#32 0xFFFFFF00#32 ZZZX 4 loc bytes

/-- `PatternMMMX` -/
def patternMMMX : PatternClass PatternNumber 32 where
  isPattern := MaskedPattern.isPattern 0xFFFFFF00#32
  new := fun bytes loc => MaskedPattern.new 0xFFFFFF00#32 MMMX 8 loc bytes true

/-- `CPack::addToDictionary` -/
def addToDictionary (d : Dictionary 32 size) (data : BitVec 32) :
    Except Failure (Dictionary 32 size) := d.push .dictionaryFull data

/-- `CPack` -/
def compressor (size : ℕ) : Compressor PatternNumber 32 size where
  getPattern := getPattern [patternZZZZ, patternMMMM, patternZZZX, patternMMMX, patternMMXX]
    patternXXXX
  addToDictionary := addToDictionary

end CPack

/-! ## FPC -/

namespace FPC

/-- `PatternNumber` -/
inductive PatternNumber where
  | ZERO_RUN | SIGN_EXTENDED_4_BITS | SIGN_EXTENDED_1_BYTE | SIGN_EXTENDED_HALFWORD
  | ZERO_PADDED_HALFWORD | SIGN_EXTENDED_TWO_HALFWORDS | REP_BYTES | UNCOMPRESSED
  deriving DecidableEq, Repr

open PatternNumber

/-- `ZeroRun` -/
def zeroRun : PatternClass PatternNumber 32 where
  isPattern := MaskedValuePattern.isPattern 0#32 0xFFFFFFFF#32
  new := fun bytes _ =>
    { MaskedValuePattern.new 0#32 0xFFFFFFFF#32 ZERO_RUN 3 (-1) bytes with zeroRun := some {} }

/-- `SignExtended4Bits` -/
def signExtended4Bits : PatternClass PatternNumber 32 where
  isPattern := SignExtendedPattern.isPattern 4
  new := fun bytes _ => SignExtendedPattern.new 4 SIGN_EXTENDED_4_BITS 3 bytes

/-- `SignExtended1Byte` -/
def signExtended1Byte : PatternClass PatternNumber 32 where
  isPattern := SignExtendedPattern.isPattern 8
  new := fun bytes _ => SignExtendedPattern.new 8 SIGN_EXTENDED_1_BYTE 3 bytes

/-- `SignExtendedHalfword` -/
def signExtendedHalfword : PatternClass PatternNumber 32 where
  isPattern := SignExtendedPattern.isPattern 16
  new := fun bytes _ => SignExtendedPattern.new 16 SIGN_EXTENDED_HALFWORD 3 bytes

/-- `ZeroPaddedHalfword` -/
def zeroPaddedHalfword : PatternClass PatternNumber 32 where
  isPattern := MaskedValuePattern.isPattern 0#32 0x0000FFFF#32
  new := fun bytes _ => MaskedValuePattern.new 0#32 0x0000FFFF#32 ZERO_PADDED_HALFWORD 3 (-1) bytes

/-- `halfwords[i]`, an `int16_t`. -/
def halfword (data : BitVec 32) (i : ℕ) : BitVec 16 := (data >>> (16 * i)).setWidth 16

/-- `halfwords[i] == (uint16_t)szext<8>(halfwords[i])`: both sides are promoted to `int`, the left
one with its sign. -/
def halfwordMatches (h : BitVec 16) : Bool :=
  h.toInt == (((szext 8 (h.signExtend 64)).setWidth 16).toNat : ℤ)

/-- `(uint16_t)szext<8>(extendedBytes[i])` -/
def extendByte (extendedByte : BitVec 8) : BitVec 16 :=
  (szext 8 (extendedByte.signExtend 64)).setWidth 16

/-- `SignExtendedTwoHalfwords` -/
def signExtendedTwoHalfwords : PatternClass PatternNumber 32 where
  isPattern := fun bytes _ _ =>
    halfwordMatches (halfword bytes 0) && halfwordMatches (halfword bytes 1)
  new := fun bytes _ =>
    Pattern.new SIGN_EXTENDED_TWO_HALFWORDS 3 16 (-1) false fun _ =>
      ((extendByte ((bytes >>> 16).setWidth 8)).setWidth 32 <<< 16) |||
        (extendByte (bytes.setWidth 8)).setWidth 32

/-- `RepBytes` -/
def repBytes : PatternClass PatternNumber 32 where
  isPattern := RepeatedValuePattern.isPattern 8
  new := fun bytes _ => RepeatedValuePattern.new 8 REP_BYTES 3 (-1) bytes false

/-- `Uncompressed` -/
def uncompressed : PatternClass PatternNumber 32 where
  isPattern := UncompressedPattern.isPattern
  new := fun bytes _ => UncompressedPattern.new UNCOMPRESSED 3 (-1) bytes

/-- `setRealSize(size)`, a sum of two `int`s. -/
def setRealSize (p : Pattern PatternNumber 32) (size : ℕ) :
    Except Failure (Pattern PatternNumber 32) := do
  require .signedOverflow (decide (p.length + size < 2 ^ 31))
  return { p with zeroRun := p.zeroRun.map fun z => { z with realSize := p.length + size } }

/-- `setRunLength(length)` -/
def setRunLength (p : Pattern PatternNumber 32) (length : ℕ) : Pattern PatternNumber 32 :=
  { p with zeroRun := p.zeroRun.map fun z => { z with runLength := length } }

/-- `getRunLength()` -/
def getRunLength (p : Pattern PatternNumber 32) : ℕ := (p.zeroRun.getD {}).runLength

/-- The zero run that a zero word starts or continues. -/
def addZero (zeroRunSizeBits : ℕ) (back : Option (Pattern PatternNumber 32))
    (pattern : Pattern PatternNumber 32) : Except Failure (Pattern PatternNumber 32) :=
  match back with
  | none => setRealSize pattern zeroRunSizeBits
  | some last =>
      if last.patternNumber ≠ ZERO_RUN then setRealSize pattern zeroRunSizeBits
      -- the limit of the run has been reached
      else if getRunLength last = (mask zeroRunSizeBits).toNat then
        setRealSize pattern zeroRunSizeBits
      else .ok (setRunLength pattern (getRunLength last + 1))

/-- `FPCCompData::addEntry` -/
def addEntry (zeroRunSizeBits : ℕ) (data : CompData PatternNumber 32)
    (pattern : Pattern PatternNumber 32) : Except Failure (CompData PatternNumber 32) :=
  if pattern.patternNumber = ZERO_RUN then do
    let p ← addZero zeroRunSizeBits data.entries.getLast? pattern
    return data.addEntry p
  else .ok (data.addEntry pattern)

/-- `FPC` -/
def compressor (zeroRunSizeBits size : ℕ) : Compressor PatternNumber 32 size where
  getPattern := getPattern [zeroRun, signExtended4Bits, signExtended1Byte, signExtendedHalfword,
    zeroPaddedHalfword, signExtendedTwoHalfwords, repBytes] uncompressed
  addToDictionary := fun d _ => .ok d
  addEntry := addEntry zeroRunSizeBits

end FPC

/-! ## FPCD -/

namespace FPCD

/-- `PatternNumber` -/
inductive PatternNumber where
  | ZZZZ | FFFF | MMMMPenultimate | MMMMPrevious | ZZZX | XZZZ | RRRR | MMMXPenultimate
  | MMMXPrevious | ZZXX | ZXZX | FFXX | XXZZ | MMXXPenultimate | MMXXPrevious | XXXX
  deriving DecidableEq, Repr

open PatternNumber

/-- `prefixSize` -/
def prefixSize : ℕ := 4

/-- `previousIndex` -/
def previousIndex : ℕ := 1

/-- `penultimateIndex` -/
def penultimateIndex : ℕ := 0

/-- A pattern that compares with a fixed value. -/
def valuePattern (number : PatternNumber) (value mask : BitVec 32) :
    PatternClass PatternNumber 32 where
  isPattern := MaskedValuePattern.isPattern value mask
  new := fun bytes loc => MaskedValuePattern.new value mask number prefixSize loc bytes true

/-- A pattern that compares with one of the two dictionary entries. -/
def locatedPattern (number : PatternNumber) (mask : BitVec 32) (location : ℕ) :
    PatternClass PatternNumber 32 where
  isPattern := LocatedMaskedPattern.isPattern mask location
  new := fun bytes loc => MaskedPattern.new mask number prefixSize loc bytes

/-- `PatternZZZZ` -/
def patternZZZZ := valuePattern ZZZZ 0#32 0xFFFFFFFF#32

/-- `PatternFFFF` -/
def patternFFFF := valuePattern FFFF 0xFFFFFFFF#32 0xFFFFFFFF#32

/-- `PatternMMMMPrevious` -/
def patternMMMMPrevious := locatedPattern MMMMPrevious 0xFFFFFFFF#32 previousIndex

/-- `PatternMMMMPenultimate` -/
def patternMMMMPenultimate := locatedPattern MMMMPenultimate 0xFFFFFFFF#32 penultimateIndex

/-- `PatternZZZX` -/
def patternZZZX := valuePattern ZZZX 0#32 0xFFFFFF00#32

/-- `PatternXZZZ` -/
def patternXZZZ := valuePattern XZZZ 0#32 0x00FFFFFF#32

/-- `PatternRRRR` -/
def patternRRRR : PatternClass PatternNumber 32 where
  isPattern := RepeatedValuePattern.isPattern 8
  new := fun bytes loc => RepeatedValuePattern.new 8 RRRR prefixSize loc bytes true

/-- `PatternMMMXPrevious` -/
def patternMMMXPrevious := locatedPattern MMMXPrevious 0xFFFFFF00#32 previousIndex

/-- `PatternMMMXPenultimate` -/
def patternMMMXPenultimate := locatedPattern MMMXPenultimate 0xFFFFFF00#32 penultimateIndex

/-- `PatternZZXX` -/
def patternZZXX := valuePattern ZZXX 0#32 0xFFFF0000#32

/-- `PatternZXZX` -/
def patternZXZX := valuePattern ZXZX 0#32 0xFF00FF00#32

/-- `PatternFFXX` -/
def patternFFXX := valuePattern FFXX 0xFFFFFFFF#32 0xFFFF0000#32

/-- `PatternXXZZ` -/
def patternXXZZ := valuePattern XXZZ 0#32 0x0000FFFF#32

/-- `PatternMMXXPrevious` -/
def patternMMXXPrevious := locatedPattern MMXXPrevious 0xFFFF0000#32 previousIndex

/-- `PatternMMXXPenultimate` -/
def patternMMXXPenultimate := locatedPattern MMXXPenultimate 0xFFFF0000#32 penultimateIndex

/-- `PatternXXXX` -/
def patternXXXX : PatternClass PatternNumber 32 where
  isPattern := UncompressedPattern.isPattern
  new := fun bytes loc => UncompressedPattern.new XXXX prefixSize loc bytes

/-- `FPCD::addToDictionary`: a table of two entries, the oldest of which is replaced. -/
def addToDictionary (d : Dictionary 32 size) (data : BitVec 32) :
    Except Failure (Dictionary 32 size) :=
  if h : d.numEntries = 2 then
    have hlt : previousIndex < size := h.symm.trans_le d.numEntries_le
    have hlt' : penultimateIndex < size := Nat.lt_of_succ_lt hlt
    let shifted := d.entries.set penultimateIndex d.entries[previousIndex]
    .ok { d with entries := shifted.set previousIndex data }
  else d.push .outOfBounds data

/-- `FPCD` -/
def compressor (size : ℕ) : Compressor PatternNumber 32 size where
  getPattern := getPattern [patternZZZZ, patternFFFF, patternMMMMPrevious, patternMMMMPenultimate,
    patternZZZX, patternXZZZ, patternRRRR, patternMMMXPrevious, patternMMMXPenultimate, patternZZXX,
    patternZXZX, patternFFXX, patternXXZZ, patternMMXXPrevious, patternMMXXPenultimate] patternXXXX
  addToDictionary := addToDictionary

end FPCD

/-! ## BaseDelta -/

namespace BaseDelta

/-- `PatternNumber` -/
inductive PatternNumber where
  | X | M
  deriving DecidableEq, Repr

open PatternNumber

variable {w : ℕ}

/-- `DEFAULT_MAX_NUM_BASES` -/
def defaultMaxNumBases : ℕ := 2

/-- `std::ceil(std::log2(DEFAULT_MAX_NUM_BASES))` -/
def baseBits : ℕ := Nat.clog 2 defaultMaxNumBases

/-- `PatternX` -/
def patternX (deltaSizeBits : ℕ) : PatternClass PatternNumber w where
  isPattern := UncompressedPattern.isPattern
  new := fun bytes loc => UncompressedPattern.new X (baseBits + deltaSizeBits) loc bytes

/-- `PatternM` -/
def patternM (deltaSizeBits : ℕ) : PatternClass PatternNumber w where
  isPattern := DeltaPattern.isPattern deltaSizeBits
  new := fun bytes loc => DeltaPattern.new deltaSizeBits M baseBits loc bytes

/-- `BaseDelta::addToDictionary` -/
def addToDictionary (d : Dictionary w size) (data : BitVec w) :
    Except Failure (Dictionary w size) := d.push .dictionaryFull data

/-- `BaseDelta::resetDictionary()`: the zero base is added. -/
def resetDictionary : Except Failure (Dictionary w size) := addToDictionary Dictionary.reset 0#w

/-- `BaseDelta<BaseType, DeltaSizeBits>`, with a `BaseType` of `w` bits. -/
def compressor (w deltaSizeBits size : ℕ) : Compressor PatternNumber w size where
  getPattern := getPattern [patternM deltaSizeBits] (patternX deltaSizeBits)
  addToDictionary := addToDictionary
  resetDictionary := resetDictionary

/-- The size of a compressed line: that of the block when there are too many bases, else with the
bases that have not been used. -/
def adjustSize (blkSize numEntries : ℕ) (data : CompData PatternNumber w) :
    CompData PatternNumber w :=
  if defaultMaxNumBases < numEntries then { data with sizeBits := blkSize * 8 }
  else { data with sizeBits := data.sizeBits + w * (defaultMaxNumBases - numEntries) }

/-- `BaseDelta::compress` -/
def compress (w deltaSizeBits size blkSize : ℕ) (chunks : List (BitVec w)) :
    Except Failure (CompData PatternNumber w × Dictionary w size) := do
  let r ← (compressor w deltaSizeBits size).compress chunks
  return (adjustSize blkSize r.2.numEntries r.1, r.2)

end BaseDelta

end Gem5.Compression
