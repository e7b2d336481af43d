/-
# Rename maps and free lists

Embedding of `cpu/o3/rename_map.cc` and `cpu/o3/free_list.hh`.  A rename map
holds one map per register class from architectural to physical registers; a
null pointer is `none`.  The free lists are queues shared by all threads.  Misc
registers have a fixed mapping and are never stored.
-/
import Gem5.RegClass

namespace Gem5.O3

variable (p : RegFileParams)

/-! ## Data -/

/-- The pin counters that a `PhysRegId` carries. -/
structure Pins where
  numPinnedWrites : ℤ
  numPinnedWritesToComplete : ℤ
  pinned : Bool
  deriving DecidableEq, Repr, Inhabited

/-- `PhysRegId::setNumPinnedWrites` followed by `setNumPinnedWritesToComplete`, as
`SimpleRenameMap::rename` calls them on a freshly allocated register. -/
def Pins.fresh (numWrites : ℤ) : Pins := ⟨numWrites, numWrites + 1, numWrites ≠ 0⟩

/-- The arch-to-phys maps of all classes; a null pointer, or an index past the
end of the vector, is `none`. -/
abbrev ArchMap := RegClass → ℕ → Option PhysReg

/-- `UnifiedRenameMap` -/
structure UnifiedRenameMap where
  map : ArchMap
  vecMode : VecRegRenameMode

/-- `UnifiedFreeList`: one queue per class, the front at the head. -/
abbrev FreeList := RegClass → List PhysReg

/-- Write one entry of a map. -/
def ArchMap.set (m : ArchMap) (c : RegClass) (i : ℕ) (r : PhysReg) : ArchMap :=
  Function.update m c (Function.update (m c) i (some r))

theorem ArchMap.set_apply (m : ArchMap) (c : RegClass) (i : ℕ) (r : PhysReg) (c' : RegClass)
    (i' : ℕ) : m.set c i r c' i' = if c' = c ∧ i' = i then some r else m c' i' := by
  unfold set
  by_cases hc : c' = c
  · subst hc
    by_cases hi : i' = i
    · subst hi; simp
    · simp [hi]
  · simp [hc]

theorem ArchMap.set_self (m : ArchMap) (c : RegClass) (i : ℕ) (r : PhysReg) :
    m.set c i r c i = some r := by
  rw [set_apply, if_pos ⟨rfl, rfl⟩]

theorem ArchMap.set_set (m : ArchMap) (c : RegClass) (i : ℕ) (r r' : PhysReg) :
    (m.set c i r).set c i r' = m.set c i r' := by
  funext c' i'
  rw [set_apply, set_apply, set_apply]
  split_ifs <;> rfl

/-- Writing the value that is there changes nothing. -/
theorem ArchMap.set_eq_self {m : ArchMap} {c : RegClass} {i : ℕ} {r : PhysReg}
    (h : m c i = some r) : m.set c i r = m := by
  funext c' i'
  rw [set_apply]
  split_ifs with hci
  · rw [hci.1, hci.2, h]
  · rfl

/-! ## Free lists -/

/-- `UnifiedFreeList::addReg` -/
def FreeList.addReg (fl : FreeList) (freed_reg : PhysReg) : Except Fault FreeList :=
  if freed_reg.regClass = .MiscRegClass then .error .unexpectedRegClass
  else .ok (Function.update fl freed_reg.regClass (fl freed_reg.regClass ++ [freed_reg]))

/-- `PhysRegFile::initFreeList`: vectors go to the list of the initial mode. -/
def initFreeList : FreeList
  | .VecRegClass => if p.initVecRegRenameMode = .Full then getRegIds p .VecRegClass else []
  | .VecElemClass => if p.initVecRegRenameMode = .Full then [] else getRegIds p .VecElemClass
  | .MiscRegClass => []
  | c => getRegIds p c

/-! ## Renaming -/

/-- What `SimpleRenameMap::rename` returns and leaves behind. -/
structure RenameResult where
  first : PhysReg
  second : PhysReg
  map : ArchMap
  freeList : FreeList
  pins : PhysReg → Pins

/-- `SimpleRenameMap::rename` on the map of the register's class. -/
def SimpleRenameMap.rename (arch_reg : RegId) (m : ArchMap) (fl : FreeList)
    (pins : PhysReg → Pins) : Except Fault RenameResult :=
  match m arch_reg.regClass (arch_reg.flatIndex p) with
  | none => .error .badArchReg
  | some prev_reg =>
      if arch_reg.isZeroReg p then
        if prev_reg.index p = p.zeroReg then .ok ⟨prev_reg, prev_reg, m, fl, pins⟩
        else .error .zeroRegIndex
      else if 0 < (pins prev_reg).numPinnedWrites then
        -- a pinned register is not renamed again
        if arch_reg.numPinnedWrites = 0 then
          .ok ⟨prev_reg, prev_reg, m, fl, Function.update pins prev_reg
            { pins prev_reg with numPinnedWrites := (pins prev_reg).numPinnedWrites - 1 }⟩
        else .error .pinnedTwice
      else
        match fl arch_reg.regClass with
        | [] => .error .freeListEmpty
        | renamed_reg :: rest =>
            .ok ⟨renamed_reg, prev_reg, m.set arch_reg.regClass (arch_reg.flatIndex p) renamed_reg,
              Function.update fl arch_reg.regClass rest,
              Function.update pins renamed_reg (.fresh arch_reg.numPinnedWrites)⟩

/-- The vector interface that `rename`, `lookup` and `setEntry` assert. -/
def vecModeOk (c : RegClass) (mode : VecRegRenameMode) : Bool :=
  match c with
  | .VecRegClass => mode = .Full
  | .VecElemClass => mode = .Elem
  | _ => true

/-- `PhysRegFile::getMiscRegId` -/
def getMiscRegId (i : ℕ) : Except Fault PhysReg :=
  if i < p.numArchRegs .MiscRegClass then .ok ⟨.MiscRegClass, i⟩ else .error .badArchReg

/-- `UnifiedRenameMap::lookup` -/
def UnifiedRenameMap.lookup (m : UnifiedRenameMap) (arch_reg : RegId) : Except Fault PhysReg :=
  if arch_reg.regClass = .MiscRegClass then getMiscRegId p (arch_reg.flatIndex p)
  else if vecModeOk arch_reg.regClass m.vecMode then
    match m.map arch_reg.regClass (arch_reg.flatIndex p) with
    | none => .error .badArchReg
    | some r => .ok r
  else .error .vecMode

/-- `UnifiedRenameMap::rename`; misc registers are only looked up. -/
def UnifiedRenameMap.rename (m : UnifiedRenameMap) (arch_reg : RegId) (fl : FreeList)
    (pins : PhysReg → Pins) : Except Fault RenameResult :=
  if arch_reg.regClass = .MiscRegClass then
    match m.lookup p arch_reg with
    | .error e => .error e
    | .ok phys_reg => .ok ⟨phys_reg, phys_reg, m.map, fl, pins⟩
  else if vecModeOk arch_reg.regClass m.vecMode then
    SimpleRenameMap.rename p arch_reg m.map fl pins
  else .error .vecMode

/-- `UnifiedRenameMap::setEntry` -/
def UnifiedRenameMap.setEntry (m : UnifiedRenameMap) (arch_reg : RegId) (phys_reg : PhysReg) :
    Except Fault UnifiedRenameMap :=
  if phys_reg.regClass ≠ arch_reg.regClass then .error .setEntryClass
  else if arch_reg.regClass = .MiscRegClass then
    match m.lookup p arch_reg with
    | .error e => .error e
    | .ok r => if phys_reg = r then .ok m else .error .miscRemapped
  else if vecModeOk arch_reg.regClass m.vecMode then
    if arch_reg.flatIndex p < p.numArchRegs arch_reg.regClass then
      .ok { m with map := m.map.set arch_reg.regClass (arch_reg.flatIndex p) phys_reg }
    else .error .badArchReg
  else .error .vecMode

/-- `UnifiedRenameMap::canRename` on the numbers of registers requested per class. -/
def canRename (fl : FreeList) (regs : RegClass → ℕ) : Bool :=
  regs .IntRegClass ≤ (fl .IntRegClass).length ∧
  regs .FloatRegClass ≤ (fl .FloatRegClass).length ∧
  regs .VecRegClass ≤ (fl .VecRegClass).length ∧
  regs .VecElemClass ≤ (fl .VecElemClass).length ∧
  regs .VecPredRegClass ≤ (fl .VecPredRegClass).length ∧
  regs .CCRegClass ≤ (fl .CCRegClass).length

/-- `UnifiedRenameMap::numFreeEntries`: condition codes are not counted. -/
def UnifiedRenameMap.numFreeEntries (m : UnifiedRenameMap) (fl : FreeList) : ℕ :=
  min (min (fl .IntRegClass).length (fl .FloatRegClass).length)
    (min (if m.vecMode = .Full then (fl .VecRegClass).length else (fl .VecElemClass).length)
      (fl .VecPredRegClass).length)

/-! ## Switching the vector interface -/

/-- `vectorRegFile`: the elements of each physical vector register. -/
abbrev VectorRegFile := ℕ → ℕ → UInt32

/-- The mapping of an element after the split of the vector maps: element
`i % n` of the register that vector `i / n` is mapped to. -/
def splitEntry (m : ArchMap) (i : ℕ) : Option PhysReg :=
  (m .VecRegClass (i / p.NumVecElemPerVecReg)).map fun r =>
    ⟨.VecElemClass, r.pos * p.NumVecElemPerVecReg + i % p.NumVecElemPerVecReg⟩

/-- `getRegElemIds` is called on every entry of the vector map. -/
def vecEntriesOk (m : ArchMap) : Except Fault Unit :=
  if ∃ i ∈ List.range (p.numArchRegs .VecRegClass), m .VecRegClass i = none then
    .error .badArchReg
  else if ∃ i ∈ List.range (p.numArchRegs .VecRegClass),
      ((m .VecRegClass i).map PhysReg.regClass) ≠ some .VecRegClass then .error .notAVector
  else .ok ()

/-- The vector stitched together from the elements an architectural vector maps to. -/
def stitched (m : ArchMap) (rf : VectorRegFile) (i e : ℕ) : UInt32 :=
  match m .VecElemClass (p.NumVecElemPerVecReg * i + e) with
  | some r => rf (r.index p) (r.elemIndex p)
  | none => 0

/-- `UnifiedRenameMap::switchMode`.  From `Full` to `Elem` every mapping is split;
from `Elem` to `Full` the elements are stitched into the first registers of the
file and the map is reset to those. -/
def UnifiedRenameMap.switchMode (m : UnifiedRenameMap) (newVecMode : VecRegRenameMode)
    (rf : VectorRegFile) : Except Fault (UnifiedRenameMap × VectorRegFile) :=
  if newVecMode = .Elem ∧ m.vecMode = .Full then
    match vecEntriesOk p m.map with
    | .error e => .error e
    | .ok () =>
        .ok ({ vecMode := .Elem
               map := Function.update m.map .VecElemClass fun i =>
                 if i < p.numArchRegs .VecElemClass then splitEntry p m.map i
                 else m.map .VecElemClass i }, rf)
  else if newVecMode = .Full ∧ m.vecMode = .Elem then
    if ∃ i ∈ List.range (p.numArchRegs .VecElemClass), m.map .VecElemClass i = none then
      .error .badArchReg
    else
      .ok ({ vecMode := .Full
             map := Function.update m.map .VecRegClass fun i =>
               if i < p.numArchRegs .VecRegClass then some ⟨.VecRegClass, i⟩
               else m.map .VecRegClass i },
        fun i e => if i < p.numArchRegs .VecRegClass then stitched p m.map rf i e else rf i e)
  else .ok (m, rf)

/-- `UnifiedRenameMap::switchFreeList` -/
def UnifiedRenameMap.switchFreeList (m : UnifiedRenameMap) (fl : FreeList) :
    Except Fault FreeList :=
  match m.vecMode with
  | .Elem =>
      if fl .VecElemClass ≠ [] then .error .alreadyTracking
      else if (fl .VecRegClass).length ≠ p.numPhysVecRegs - p.numArchRegs .VecRegClass then
        .error .lostRegisters
      else
        -- every free vector is split into its elements
        .ok (Function.update (Function.update fl .VecElemClass
          ((fl .VecRegClass).flatMap (getRegElemIds p))) .VecRegClass [])
  | .Full =>
      if fl .VecRegClass ≠ [] then .error .alreadyTracking
      else if (fl .VecElemClass).length ≠
          p.numPhysRegs .VecElemClass - p.numArchRegs .VecElemClass then .error .lostRegisters
      else
        .ok (Function.update (Function.update fl .VecRegClass
          ((getRegIds p .VecRegClass).drop (p.numArchRegs .VecRegClass))) .VecElemClass [])

end Gem5.O3
