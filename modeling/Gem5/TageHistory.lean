/-
# The histories of the TAGE predictor

`TAGEBase` keeps, for every thread, the outcomes of the branches in a buffer that grows towards its
beginning, with the most recent outcome at `gHist`, and for every tagged table three registers with
a folded history.  A branch is predicted, its outcome pushed speculatively; the BTB may correct the
latest branch to not taken, and a misprediction restores pointer and registers to those saved with
the branch.

The predictor's tables are left out.  Together with the predictor, a thread has the `BranchInfo`s of
its branches that are not retired yet, the latest one first.
-/
import Gem5.IntIndex

open Runs

namespace Gem5.BranchPrediction.TAGE

/-- The assertions, and an access outside `globalHistory`. -/
inductive TageFail where
  | pathHistBits
  | histBufferSize
  | tagTableTagWidths
  | logTagTableSizes
  | ghistPointer
  | outOfBounds
  | noBranch
  deriving DecidableEq, Repr

/-- The parameters that the histories depend on.  The lengths are those of the tables from 1 on, as
`calculateParameters` and the configuration give them. -/
structure TAGEParams where
  histBufferSize : ℕ
  maxHist : ℕ
  pathHistBits : ℕ
  instShiftAmt : ℕ
  nHistoryTables : ℕ
  histLengths : List ℕ
  logTagTableSizes : List ℕ
  tagTableTagWidths : List ℕ
  speculativeHistUpdate : Bool
  deriving Repr

/-! ## Folded histories -/

/-- `FoldedHistory` -/
structure FoldedHistory where
  comp : BitVec 32
  compLength : ℕ
  origLength : ℕ
  outpoint : ℕ
  deriving DecidableEq, Repr

/-- `init(original_length, compressed_length)` -/
def FoldedHistory.init (original_length compressed_length : ℕ) : FoldedHistory where
  comp := 0
  compLength := compressed_length
  origLength := original_length
  outpoint := original_length % compressed_length

/-- `update(h)` -/
def FoldedHistory.update (f : FoldedHistory) (h : ℤ → Except TageFail (BitVec 8)) :
    Except TageFail FoldedHistory := do
  let comp := (f.comp <<< 1) ||| (← h 0).setWidth 32
  let comp := comp ^^^ ((← h f.origLength).setWidth 32 <<< f.outpoint)
  let comp := comp ^^^ (comp >>> f.compLength)
  let comp := comp &&& BitVec.ofNat 32 (2 ^ f.compLength - 1)
  return { f with comp := comp }

/-! ## State -/

/-- `ThreadHistory`; `gHist` is an offset into `globalHistory`. -/
structure ThreadHistory where
  pathHist : BitVec 32
  globalHistory : List (BitVec 8)
  gHist : ℤ
  ptGhist : ℤ
  computeIndices : List FoldedHistory
  computeTags0 : List FoldedHistory
  computeTags1 : List FoldedHistory
  deriving DecidableEq, Repr

/-- What a `BranchInfo` saves of the histories. -/
structure BranchInfo where
  pathHist : BitVec 32
  ptGhist : ℤ
  ci : List (BitVec 32)
  ct0 : List (BitVec 32)
  ct1 : List (BitVec 32)
  deriving DecidableEq, Repr

/-- The part of `init()` that sets up a thread's histories. -/
def init (p : TAGEParams) : Except TageFail ThreadHistory := do
  require .pathHistBits (p.pathHistBits ≤ 32)
  require .histBufferSize (p.histBufferSize > p.maxHist * 2)
  require .tagTableTagWidths (p.tagTableTagWidths.length = p.nHistoryTables)
  require .logTagTableSizes (p.logTagTableSizes.length = p.nHistoryTables)
  return {
    pathHist := 0
    globalHistory := List.replicate p.histBufferSize 0
    gHist := 0
    ptGhist := 0
    computeIndices := List.zipWith FoldedHistory.init p.histLengths p.logTagTableSizes
    computeTags0 := List.zipWith FoldedHistory.init p.histLengths p.tagTableTagWidths
    computeTags1 :=
      List.zipWith FoldedHistory.init p.histLengths (p.tagTableTagWidths.map (· - 1)) }

/-! ## Operations -/

/-- `gHist[i]` -/
def ThreadHistory.hist (t : ThreadHistory) (i : ℤ) : Except TageFail (BitVec 8) :=
  IntIndex.read .outOfBounds t.globalHistory (t.gHist + i)

/-- `gHist[0] = taken ? 1 : 0` -/
def ThreadHistory.setOutcome (t : ThreadHistory) (taken : Bool) :
    Except TageFail ThreadHistory := do
  let globalHistory ←
    IntIndex.write .outOfBounds t.globalHistory t.gHist (if taken then 1 else 0)
  return { t with globalHistory := globalHistory }

/-- The updates of all registers. -/
def ThreadHistory.update (t : ThreadHistory) : Except TageFail ThreadHistory := do
  let computeIndices ← t.computeIndices.mapM fun f => f.update t.hist
  let computeTags0 ← t.computeTags0.mapM fun f => f.update t.hist
  let computeTags1 ← t.computeTags1.mapM fun f => f.update t.hist
  return { t with
    computeIndices := computeIndices
    computeTags0 := computeTags0
    computeTags1 := computeTags1 }

/-- Registers with the values that have been saved. -/
def restore (regs : List FoldedHistory) (saved : List (BitVec 32)) : List FoldedHistory :=
  List.zipWith (fun f c => { f with comp := c }) regs saved

/-- The registers as a branch has found them. -/
def ThreadHistory.restoreFrom (t : ThreadHistory) (bi : BranchInfo) : ThreadHistory :=
  { t with
    computeIndices := restore t.computeIndices bi.ci
    computeTags0 := restore t.computeTags0 bi.ct0
    computeTags1 := restore t.computeTags1 bi.ct1 }

/-- `tab[histBufferSize - maxHist + i] = tab[i]` for all `i < maxHist` -/
def copyBeginning (p : TAGEParams) (tab : List (BitVec 8)) : Except TageFail (List (BitVec 8)) :=
  (List.range p.maxHist).foldlM (fun tab (i : ℕ) => do
    let outcome ← IntIndex.read .outOfBounds tab i
    IntIndex.write .outOfBounds tab (p.histBufferSize - p.maxHist + i) outcome) tab

/-- The roll-over of `updateGHist`. -/
def rollOver (p : TAGEParams) (t : ThreadHistory) : Except TageFail ThreadHistory :=
  if t.ptGhist = 0 then do
    let tab ← copyBeginning p t.globalHistory
    let pt : ℤ := p.histBufferSize - p.maxHist
    return { t with globalHistory := tab, ptGhist := pt, gHist := pt }
  else .ok t

/-- `updateGHist(h, dir, tab, pt)` -/
def updateGHist (p : TAGEParams) (t : ThreadHistory) (dir : Bool) :
    Except TageFail ThreadHistory := do
  let t ← rollOver p t
  let t := { t with ptGhist := t.ptGhist - 1, gHist := t.gHist - 1 }
  t.setOutcome dir

/-- `updateHistories(tid, branch_pc, taken, bi, speculative)`: the history of the thread and what
the branch has saved. -/
def updateHistories (p : TAGEParams) (t : ThreadHistory) (branch_pc : BitVec 64) (taken : Bool)
    (bi : BranchInfo) (speculative : Bool) : Except TageFail (ThreadHistory × BranchInfo) := do
  if speculative != p.speculativeHistUpdate then
    return (t, bi)
  let pathbit := (branch_pc >>> p.instShiftAmt) &&& 1
  let t ← updateGHist p t taken
  let pathHist := (t.pathHist <<< 1) + pathbit.setWidth 32
  let t := { t with pathHist := pathHist &&& BitVec.ofNat 32 (2 ^ p.pathHistBits - 1) }
  let bi := if speculative then
      { ptGhist := t.ptGhist
        pathHist := t.pathHist
        ci := t.computeIndices.map (·.comp)
        ct0 := t.computeTags0.map (·.comp)
        ct1 := t.computeTags1.map (·.comp) }
    else bi
  let t ← t.update
  require .ghistPointer (t.gHist = t.ptGhist)
  return (t, bi)

/-- `btbUpdate(tid, branch_pc, bi)` -/
def btbUpdate (p : TAGEParams) (t : ThreadHistory) (bi : BranchInfo) :
    Except TageFail ThreadHistory := do
  if p.speculativeHistUpdate then
    require .ghistPointer (t.gHist = t.ptGhist)
    let t ← t.setOutcome false
    (t.restoreFrom bi).update
  else return t

/-- `squash(tid, taken, bi, target)` -/
def squash (p : TAGEParams) (t : ThreadHistory) (taken : Bool) (bi : BranchInfo) :
    Except TageFail ThreadHistory := do
  if !p.speculativeHistUpdate then
    return t
  let t := { t with pathHist := bi.pathHist, ptGhist := bi.ptGhist, gHist := bi.ptGhist }
  let t ← t.setOutcome taken
  (t.restoreFrom bi).update

/-! ## Threads -/

/-- A thread's history and its branches that are not retired, the latest one first. -/
structure Thread where
  history : ThreadHistory
  inflight : List BranchInfo
  deriving DecidableEq, Repr

/-- The values of a `BranchInfo` from its constructor. -/
def BranchInfo.new : BranchInfo := ⟨0, 0, [], [], []⟩

/-- What happens to the branches of a thread. -/
inductive Action where
  /-- A branch is predicted and its history updated speculatively. -/
  | predict (branch_pc : BitVec 64) (taken : Bool)
  /-- The BTB has no target for the latest branch. -/
  | btbUpdate
  /-- The `i`-th latest branch has had another outcome. -/
  | squash (i : ℕ) (taken : Bool)
  /-- The oldest branch retires. -/
  | retire
  deriving DecidableEq, Repr

def Thread.step (p : TAGEParams) (s : Thread) : Action → Except TageFail Thread
  | .predict branch_pc taken => do
      let (t, bi) ← updateHistories p s.history branch_pc taken .new true
      return ⟨t, bi :: s.inflight⟩
  | .btbUpdate => do
      let bi ← orFail .noBranch s.inflight.head?
      let t ← TAGE.btbUpdate p s.history bi
      return { s with history := t }
  | .squash i taken => do
      let bi ← orFail .noBranch s.inflight[i]?
      let t ← TAGE.squash p s.history taken bi
      return ⟨t, s.inflight.drop i⟩
  | .retire => return { s with inflight := s.inflight.dropLast }

/-- One thread's action in a system of threads. -/
def step {n : ℕ} (p : TAGEParams) (s : Fin n → Thread) (a : Fin n × Action) :
    Except TageFail (Fin n → Thread) := do
  let t ← (s a.1).step p a.2
  return Function.update s a.1 t

end Gem5.BranchPrediction.TAGE
