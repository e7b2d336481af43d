/-
# Register identifiers and the physical register file

Embedding of `cpu/reg_class.hh` and of the parts of `cpu/o3/regfile.cc` and
`cpu/o3/scoreboard.hh` that renaming uses: the seven register classes, the
architectural `RegId`, the physical registers as positions in the per-class
identifier vectors of `PhysRegFile`, their flat indices, and the scoreboard that
is indexed by them.
-/
import Gem5.Types

namespace Gem5.O3

/-! ## Architectural registers -/

/-- `enum RegClass` -/
inductive RegClass where
  | IntRegClass
  | FloatRegClass
  | VecRegClass
  | VecElemClass
  | VecPredRegClass
  | CCRegClass
  | MiscRegClass
  deriving DecidableEq, Repr

/-- `enums::VecRegRenameMode`: whether vectors are renamed whole or by element. -/
inductive VecRegRenameMode where
  | Full
  | Elem
  deriving DecidableEq, Repr

/-- `RegId`.  The constructor panics unless an element index is given exactly for
the class `VecElemClass`; the field `elem_iff` keeps that. -/
structure RegId where
  regClass : RegClass
  regIdx : ℕ
  elemIdx : Option ℕ
  numPinnedWrites : ℤ
  elem_iff : elemIdx.isSome = true ↔ regClass = .VecElemClass
  deriving DecidableEq

/-- What the CPU is built with: the ISA's register classes and the sizes of the
physical register file.  The facts below are those every ISA of the source
satisfies: vectors exist and have elements, the element class counts the elements
of the vector class, and the zero register is an integer register. -/
structure RegFileParams where
  /-- `TheISA::NumVecElemPerVecReg` -/
  NumVecElemPerVecReg : ℕ
  /-- `regClasses.at(c).size()` -/
  numArchRegs : RegClass → ℕ
  /-- `regClasses.at(IntRegClass).zeroReg()` -/
  zeroReg : ℕ
  numPhysIntRegs : ℕ
  numPhysFloatRegs : ℕ
  numPhysVecRegs : ℕ
  numPhysVecPredRegs : ℕ
  numPhysCCRegs : ℕ
  /-- `isa[0]->initVecRegRenameMode()` -/
  initVecRegRenameMode : VecRegRenameMode
  numThreads : ℕ
  elems_pos : 0 < NumVecElemPerVecReg
  vecs_pos : 0 < numArchRegs .VecRegClass
  vecElems_eq : numArchRegs .VecElemClass = numArchRegs .VecRegClass * NumVecElemPerVecReg
  zeroReg_lt : zeroReg < numArchRegs .IntRegClass

variable (p : RegFileParams)

/-- `RegId::flatIndex`: the position of the register in the map of its class. -/
def RegId.flatIndex (r : RegId) : ℕ :=
  match r.elemIdx with
  | some e => p.NumVecElemPerVecReg * r.regIdx + e
  | none => r.regIdx

/-- `arch_reg == zeroReg`.  Every per-class map keeps its zero register in the
integer class, so the comparison can hold in the integer map only; the element
index of an integer register is absent. -/
def RegId.isZeroReg (r : RegId) : Bool := r.regClass = .IntRegClass ∧ r.regIdx = p.zeroReg

/-- A scalar register of a class other than `VecElemClass`. -/
def RegId.scalar (c : RegClass) (h : c ≠ .VecElemClass) (i : ℕ) : RegId where
  regClass := c
  regIdx := i
  elemIdx := none
  numPinnedWrites := 0
  elem_iff := ⟨fun hs => absurd hs (by decide), fun hc => absurd hc h⟩

/-- An element of a vector register. -/
def RegId.elem (i e : ℕ) : RegId where
  regClass := .VecElemClass
  regIdx := i
  elemIdx := some e
  numPinnedWrites := 0
  elem_iff := ⟨fun _ => rfl, fun _ => rfl⟩

/-- `PhysRegIdPtr`: a pointer into the identifier vector of one class, that is, a
class and a position. -/
structure PhysReg where
  regClass : RegClass
  pos : ℕ
  deriving DecidableEq, Repr

/-- The length of each identifier vector of `PhysRegFile`. -/
def RegFileParams.numPhysRegs : RegClass → ℕ
  | .IntRegClass => p.numPhysIntRegs
  | .FloatRegClass => p.numPhysFloatRegs
  | .VecRegClass => p.numPhysVecRegs
  | .VecElemClass => p.numPhysVecRegs * p.NumVecElemPerVecReg
  | .VecPredRegClass => p.numPhysVecPredRegs
  | .CCRegClass => p.numPhysCCRegs
  | .MiscRegClass => p.numArchRegs .MiscRegClass

/-- `PhysRegId::index`: an element carries the index of its vector. -/
def PhysReg.index (r : PhysReg) : ℕ :=
  if r.regClass = .VecElemClass then r.pos / p.NumVecElemPerVecReg else r.pos

/-- `PhysRegId::elemIndex` of a vector element. -/
def PhysReg.elemIndex (r : PhysReg) : ℕ := r.pos % p.NumVecElemPerVecReg

/-- `PhysRegId::isFixedMapping` -/
def PhysReg.isFixedMapping (r : PhysReg) : Bool := r.regClass = .MiscRegClass

/-- Where the flat indices of a class start; the constructor of `PhysRegFile`
numbers the classes one after the other and gives every misc register `0`. -/
def RegFileParams.flatBase : RegClass → ℕ
  | .IntRegClass => 0
  | .FloatRegClass => p.numPhysIntRegs
  | .VecRegClass => p.numPhysIntRegs + p.numPhysFloatRegs
  | .VecElemClass => p.numPhysIntRegs + p.numPhysFloatRegs + p.numPhysVecRegs
  | .VecPredRegClass => p.numPhysIntRegs + p.numPhysFloatRegs + p.numPhysVecRegs +
      p.numPhysVecRegs * p.NumVecElemPerVecReg
  | .CCRegClass => p.numPhysIntRegs + p.numPhysFloatRegs + p.numPhysVecRegs +
      p.numPhysVecRegs * p.NumVecElemPerVecReg + p.numPhysVecPredRegs
  | .MiscRegClass => 0

/-- `PhysRegId::flatIndex` -/
def PhysReg.flatIndex (r : PhysReg) : ℕ :=
  if r.regClass = .MiscRegClass then 0 else p.flatBase r.regClass + r.pos

/-- `PhysRegFile::totalNumPhysRegs` -/
def RegFileParams.totalNumRegs : ℕ := p.flatBase .CCRegClass + p.numPhysCCRegs

/-- `PhysRegFile::getRegElemIds`: the elements of a physical vector register. -/
def getRegElemIds (r : PhysReg) : List PhysReg :=
  (List.range p.NumVecElemPerVecReg).map fun e =>
    ⟨.VecElemClass, r.pos * p.NumVecElemPerVecReg + e⟩

/-- The identifiers of one class, in order (`PhysRegFile::getRegIds`). -/
def getRegIds (c : RegClass) : List PhysReg := (List.range (p.numPhysRegs c)).map (PhysReg.mk c)

/-! ## Faults -/

/-- The assertions and panics of renaming, and its undefined accesses. -/
inductive Fault where
  /-- `assert(!freeRegs.empty())` in `SimpleFreeList::getReg` -/
  | freeListEmpty
  /-- `assert(prev_reg->index() == zeroReg.index())` in `SimpleRenameMap::rename` -/
  | zeroRegIndex
  /-- `assert(arch_reg.getNumPinnedWrites() == 0)` in `SimpleRenameMap::rename` -/
  | pinnedTwice
  /-- an `assert(vecMode == ...)` of `UnifiedRenameMap` -/
  | vecMode
  /-- `assert(phys_reg->is(arch_reg.classValue()))` in `UnifiedRenameMap::setEntry` -/
  | setEntryClass
  /-- `assert(phys_reg == lookup(arch_reg))` in `UnifiedRenameMap::setEntry` -/
  | miscRemapped
  /-- a null map entry was dereferenced, or an index outside a map was used -/
  | badArchReg
  /-- `panic("Unexpected RegClass")` in `UnifiedFreeList::addReg` -/
  | unexpectedRegClass
  /-- `panic_if` "Trying to get elems of a ... register" in `PhysRegFile::getRegElemIds` -/
  | notAVector
  /-- `panic_if` "The free list is already tracking ..." in `switchFreeList` -/
  | alreadyTracking
  /-- `panic_if` "The free list has lost vector registers" in `switchFreeList` -/
  | lostRegisters
  /-- `assert(phys_reg->flatIndex() < numPhysRegs)` in `Scoreboard` -/
  | flatIndexRange
  /-- `assert(ready)` for the zero register in `Scoreboard::getReg` -/
  | zeroRegNotReady
  /-- a constructor assertion or `fatal_if` of `CPU` -/
  | badConfig
  deriving DecidableEq, Repr

/-! ## Scoreboard -/

/-- `Scoreboard`: a ready bit for each flat index. -/
abbrev Scoreboard := ℕ → Bool

/-- `Scoreboard::setReg` -/
def Scoreboard.setReg (sb : Scoreboard) (phys_reg : PhysReg) : Except Fault Scoreboard :=
  if p.totalNumRegs ≤ phys_reg.flatIndex p then .error .flatIndexRange
  else if phys_reg.isFixedMapping then .ok sb
  else .ok (Function.update sb (phys_reg.flatIndex p) true)

/-- `Scoreboard::unsetReg`; the zero register is never marked unready. -/
def Scoreboard.unsetReg (sb : Scoreboard) (phys_reg : PhysReg) : Except Fault Scoreboard :=
  if p.totalNumRegs ≤ phys_reg.flatIndex p then .error .flatIndexRange
  else if phys_reg.isFixedMapping then .ok sb
  else if phys_reg.regClass = .IntRegClass ∧ phys_reg.index p = p.zeroReg then .ok sb
  else .ok (Function.update sb (phys_reg.flatIndex p) false)

end Gem5.O3
