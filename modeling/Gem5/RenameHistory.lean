/-
# The rename stage's register state

Embedding of the register side of the out-of-order core: the initial mapping
built by the constructor in `cpu/o3/cpu.cc`, `Rename::renameDestRegs`,
`Rename::doSquash` and `Rename::removeFromHistory` of `cpu/o3/rename.cc`, the
update of the commit map in `Commit::commitHead`, and the switch of the vector
interface that ends every squash (`CPU::switchRenameMode`).

The free lists, the pin counters and the scoreboard are shared by all threads;
the maps and the history buffers belong to one thread each.
-/
import Gem5.Runs
import Gem5.RenameMap

namespace Gem5.O3

variable {n : ℕ} (p : RegFileParams)

/-! ## State -/

/-- `Rename::RenameHistory` -/
structure RenameHistory where
  instSeqNum : InstSeqNum
  archReg : RegId
  newPhysReg : PhysReg
  prevPhysReg : PhysReg
  deriving DecidableEq

/-- Undoing the entry changes something: zero, misc and pinned registers keep
their mapping. -/
def RenameHistory.changed (e : RenameHistory) : Bool := e.newPhysReg ≠ e.prevPhysReg

/-- The destinations of a dynamic instruction, as decoded. -/
structure DynInst where
  seqNum : InstSeqNum
  destRegs : List RegId

/-- A renamed instruction on its way to commit, with its `flattenedDestIdx` and
`renamedDestIdx`. -/
structure RenamedInst where
  seqNum : InstSeqNum
  dests : List (RegId × PhysReg)
  deriving DecidableEq

/-- `ThreadContext::flattenRegId`.  It depends on the ISA and on the mode the
thread runs in; in every ISA it keeps the register class. -/
structure Flattening where
  flattenRegId : RegId → RegId
  regClass_eq : ∀ r, (flattenRegId r).regClass = r.regClass

/-- The flattened destination, with the pinned writes of the original. -/
def Flattening.dest (flat : Flattening) (dest_reg : RegId) : RegId :=
  { flat.flattenRegId dest_reg with numPinnedWrites := dest_reg.numPinnedWrites }

/-- The register state of a core with `n` threads.  The youngest history entry of
a thread is the head of its buffer; `instList` holds the renamed and not yet
committed instructions, the oldest first. -/
structure CPU (n : ℕ) where
  freeList : FreeList
  renameMap : Fin n → UnifiedRenameMap
  commitRenameMap : Fin n → UnifiedRenameMap
  historyBuffer : Fin n → List RenameHistory
  instList : Fin n → List RenamedInst
  scoreboard : Scoreboard
  pins : PhysReg → Pins
  vecMode : VecRegRenameMode
  vectorRegFile : VectorRegFile

/-! ## Construction -/

/-- The architectural registers of one class in the order in which the constructor
of `CPU` maps them. -/
def archRegIds : RegClass → List RegId
  | .VecElemClass =>
      (List.range (p.numArchRegs .VecRegClass)).flatMap fun ridx =>
        (List.range (p.numArchRegs .VecElemClass / p.numArchRegs .VecRegClass)).map (.elem ridx)
  | .IntRegClass => (List.range (p.numArchRegs .IntRegClass)).map (.scalar .IntRegClass nofun)
  | .FloatRegClass =>
      (List.range (p.numArchRegs .FloatRegClass)).map (.scalar .FloatRegClass nofun)
  | .VecRegClass => (List.range (p.numArchRegs .VecRegClass)).map (.scalar .VecRegClass nofun)
  | .VecPredRegClass =>
      (List.range (p.numArchRegs .VecPredRegClass)).map (.scalar .VecPredRegClass nofun)
  | .CCRegClass => (List.range (p.numArchRegs .CCRegClass)).map (.scalar .CCRegClass nofun)
  | .MiscRegClass => []

/-- The classes the constructor maps: only one vector interface is active. -/
def mappedClasses : List RegClass :=
  [.IntRegClass, .FloatRegClass,
    if p.initVecRegRenameMode = .Full then .VecRegClass else .VecElemClass,
    .VecPredRegClass, .CCRegClass]

/-- Map the given registers of thread `tid` to the next free ones, in both maps. -/
def bindRegs (tid : Fin n) : CPU n → List RegId → Except Fault (CPU n)
  | s, [] => .ok s
  | s, r :: rs =>
      match s.freeList r.regClass with
      | [] => .error .freeListEmpty
      | phys_reg :: rest => do
          let map ← (s.renameMap tid).setEntry p r phys_reg
          let commitMap ← (s.commitRenameMap tid).setEntry p r phys_reg
          bindRegs tid
            { s with
              freeList := Function.update s.freeList r.regClass rest
              renameMap := Function.update s.renameMap tid map
              commitRenameMap := Function.update s.commitRenameMap tid commitMap } rs

/-- The state before the initial mapping: the free lists are full, the maps empty. -/
def CPU.blank (n : ℕ) : CPU n where
  freeList := initFreeList p
  renameMap := fun _ => ⟨fun _ _ => none, p.initVecRegRenameMode⟩
  commitRenameMap := fun _ => ⟨fun _ _ => none, p.initVecRegRenameMode⟩
  historyBuffer := fun _ => []
  instList := fun _ => []
  scoreboard := fun _ => true
  pins := fun _ => ⟨0, 0, false⟩
  vecMode := p.initVecRegRenameMode
  vectorRegFile := fun _ _ => 0

/-- The `fatal_if` and the assertions of the constructor; `n` is `active_threads`. -/
def configOk (n : ℕ) : Bool :=
  n ≤ p.numThreads ∧ p.numThreads ≠ 0 ∧
  p.numThreads * p.numArchRegs .IntRegClass ≤ p.numPhysIntRegs ∧
  p.numThreads * p.numArchRegs .FloatRegClass ≤ p.numPhysFloatRegs ∧
  p.numThreads * p.numArchRegs .VecRegClass ≤ p.numPhysVecRegs ∧
  p.numThreads * p.numArchRegs .VecPredRegClass ≤ p.numPhysVecPredRegs ∧
  p.numThreads * p.numArchRegs .CCRegClass ≤ p.numPhysCCRegs

/-- Map all registers of one thread. -/
def bindThread (s : CPU n) (tid : Fin n) : Except Fault (CPU n) :=
  bindRegs p tid s ((mappedClasses p).flatMap (archRegIds p))

/-- Map the registers of one thread after the other. -/
def bindThreads : CPU n → List (Fin n) → Except Fault (CPU n)
  | s, [] => .ok s
  | s, tid :: tids => do
      let s' ← bindThread p s tid
      bindThreads s' tids

/-- The constructor of `CPU`. -/
def CPU.init (n : ℕ) : Except Fault (CPU n) :=
  if configOk p n then bindThreads p (CPU.blank p n) (List.finRange n) else .error .badConfig

/-! ## Renaming destinations -/

/-- One iteration of the loop of `renameDestRegs`, on a flattened destination. -/
def renameDestReg (s : CPU n) (tid : Fin n) (seqNum : InstSeqNum) (flat_dest_regid : RegId) :
    Except Fault (CPU n × PhysReg) := do
  let r ← (s.renameMap tid).rename p flat_dest_regid s.freeList s.pins
  let scoreboard ← s.scoreboard.unsetReg p r.first
  return ({ s with
      freeList := r.freeList
      pins := r.pins
      renameMap := Function.update s.renameMap tid { s.renameMap tid with map := r.map }
      scoreboard := scoreboard
      historyBuffer := Function.update s.historyBuffer tid
        (⟨seqNum, flat_dest_regid, r.first, r.second⟩ :: s.historyBuffer tid) }, r.first)

/-- The loop of `renameDestRegs`: every destination with its new register. -/
def renameLoop (tid : Fin n) (seqNum : InstSeqNum) :
    CPU n → List RegId → Except Fault (CPU n × List (RegId × PhysReg))
  | s, [] => .ok (s, [])
  | s, r :: rs => do
      let (s', new) ← renameDestReg p s tid seqNum r
      let (s'', dests) ← renameLoop tid seqNum s' rs
      return (s'', (r, new) :: dests)

/-- `Rename::renameDestRegs` -/
def renameDestRegs (s : CPU n) (tid : Fin n) (inst : DynInst) (flat : Flattening) :
    Except Fault (CPU n) := do
  let (s', dests) ← renameLoop p tid inst.seqNum s (inst.destRegs.map flat.dest)
  return { s' with
    instList := Function.update s'.instList tid (s'.instList tid ++ [⟨inst.seqNum, dests⟩]) }

/-- `numIntDestRegs()` and its siblings. -/
def DynInst.numDestRegs (inst : DynInst) (c : RegClass) : ℕ :=
  inst.destRegs.countP fun r => r.regClass = c

/-! ## Squash and commit -/

/-- One iteration of the loop of `doSquash`. -/
def undoEntry (s : CPU n) (tid : Fin n) (e : RenameHistory) : Except Fault (CPU n) :=
  if e.changed then do
    let map ← (s.renameMap tid).setEntry p e.archReg e.prevPhysReg
    let freeList ← s.freeList.addReg e.newPhysReg
    return { s with
      freeList := freeList
      renameMap := Function.update s.renameMap tid map }
  else .ok s

/-- The loop of `doSquash`: undo the entries younger than the squash, from the
youngest on. -/
def squashLoop (tid : Fin n) (squashed_seq_num : InstSeqNum) :
    CPU n → List RenameHistory → Except Fault (CPU n)
  | s, [] => .ok { s with historyBuffer := Function.update s.historyBuffer tid [] }
  | s, e :: rest =>
      if e.instSeqNum > squashed_seq_num then do
        let s' ← undoEntry p s tid e
        squashLoop tid squashed_seq_num s' rest
      else .ok { s with historyBuffer := Function.update s.historyBuffer tid (e :: rest) }

/-- Mark registers ready one after the other. -/
def setRegs : Scoreboard → List PhysReg → Except Fault Scoreboard
  | sb, [] => .ok sb
  | sb, r :: rs => do
      let sb' ← sb.setReg p r
      setRegs sb' rs

/-- Look up registers one after the other. -/
def lookups (m : UnifiedRenameMap) : List RegId → Except Fault (List PhysReg)
  | [] => .ok []
  | r :: rs => do
      let phys_reg ← m.lookup p r
      let rest ← lookups m rs
      return phys_reg :: rest

/-- `CPU::setVectorsAsReady` -/
def setVectorsAsReady (s : CPU n) (tid : Fin n) : Except Fault (CPU n) := do
  let regs ← lookups p (s.commitRenameMap tid)
    (archRegIds p (if s.vecMode = .Elem then .VecElemClass else .VecRegClass))
  let scoreboard ← setRegs p s.scoreboard regs
  return { s with scoreboard := scoreboard }

/-- `CPU::switchRenameMode`; `new_mode` is what the ISA answers for the thread. -/
def switchRenameMode (s : CPU n) (tid : Fin n) (new_mode : VecRegRenameMode) :
    Except Fault (CPU n) :=
  if new_mode = s.vecMode then .ok s
  else do
    let (map, rf) ← (s.renameMap tid).switchMode p new_mode s.vectorRegFile
    let (commitMap, rf') ← (s.commitRenameMap tid).switchMode p new_mode rf
    let freeList ← map.switchFreeList p s.freeList
    setVectorsAsReady p
      { s with
        vecMode := new_mode
        renameMap := Function.update s.renameMap tid map
        commitRenameMap := Function.update s.commitRenameMap tid commitMap
        freeList := freeList
        vectorRegFile := rf' } tid

/-- `Rename::doSquash` -/
def doSquash (s : CPU n) (squashed_seq_num : InstSeqNum) (tid : Fin n)
    (new_mode : VecRegRenameMode) : Except Fault (CPU n) := do
  let s' ← squashLoop p tid squashed_seq_num s (s.historyBuffer tid)
  switchRenameMode p s' tid new_mode

/-- The loop of `removeFromHistory`, on the reversed buffer: free the previous
registers of the entries that are old enough, from the oldest on. -/
def commitLoop (inst_seq_num : InstSeqNum) :
    FreeList → List RenameHistory → Except Fault (FreeList × List RenameHistory)
  | fl, [] => .ok (fl, [])
  | fl, e :: rest =>
      if e.instSeqNum ≤ inst_seq_num then
        if e.changed then do
          let fl' ← fl.addReg e.prevPhysReg
          commitLoop inst_seq_num fl' rest
        else commitLoop inst_seq_num fl rest
      else .ok (fl, e :: rest)

/-- `Rename::removeFromHistory` -/
def removeFromHistory (s : CPU n) (inst_seq_num : InstSeqNum) (tid : Fin n) :
    Except Fault (CPU n) := do
  let (fl, rest) ← commitLoop inst_seq_num s.freeList (s.historyBuffer tid).reverse
  return { s with
    freeList := fl
    historyBuffer := Function.update s.historyBuffer tid rest.reverse }

/-- Set the given entries of a map one after the other. -/
def setEntries : UnifiedRenameMap → List (RegId × PhysReg) → Except Fault UnifiedRenameMap
  | m, [] => .ok m
  | m, d :: ds => do
      let m' ← m.setEntry p d.1 d.2
      setEntries m' ds

/-- The update of the commit rename map in `Commit::commitHead`, on the oldest
instruction in flight; without one there is nothing to commit. -/
def commitHead (s : CPU n) (tid : Fin n) : Except Fault (CPU n) :=
  match s.instList tid with
  | [] => .ok s
  | head_inst :: rest => do
      let commitMap ← setEntries p (s.commitRenameMap tid) head_inst.dests
      return { s with
        commitRenameMap := Function.update s.commitRenameMap tid commitMap
        instList := Function.update s.instList tid rest }

/-! ## The register state as a state machine -/

/-- What the pipeline does to the register state.  `setReg` is a writeback,
`setPins` any change that execution or a squash makes to the pin counters. -/
inductive Action (n : ℕ) where
  | renameDestRegs (tid : Fin n) (inst : DynInst) (flat : Flattening)
  | doSquash (squashed_seq_num : InstSeqNum) (tid : Fin n) (new_mode : VecRegRenameMode)
  | removeFromHistory (inst_seq_num : InstSeqNum) (tid : Fin n)
  | commitHead (tid : Fin n)
  | setReg (phys_reg : PhysReg)
  | setPins (phys_reg : PhysReg) (pins : Pins)

/-- One action.  A squash also drops the squashed instructions in flight. -/
def step (s : CPU n) : Action n → Except Fault (CPU n)
  | .renameDestRegs tid inst flat => renameDestRegs p s tid inst flat
  | .doSquash squashed_seq_num tid new_mode => do
      let s' ← doSquash p s squashed_seq_num tid new_mode
      return { s' with
        instList := Function.update s'.instList tid
          ((s'.instList tid).filter fun i => i.seqNum ≤ squashed_seq_num) }
  | .removeFromHistory inst_seq_num tid => removeFromHistory s inst_seq_num tid
  | .commitHead tid => commitHead p s tid
  | .setReg phys_reg => do
      let scoreboard ← s.scoreboard.setReg p phys_reg
      return { s with scoreboard := scoreboard }
  | .setPins phys_reg pins => .ok { s with pins := Function.update s.pins phys_reg pins }

end Gem5.O3
