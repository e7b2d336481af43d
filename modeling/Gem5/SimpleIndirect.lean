/-
# The simple indirect predictor

`SimpleIndirectPredictor` of `cpu/pred/simple_indirect.cc` for one thread, as `BPredUnit` calls it:
what it answers is used in a prediction, and a squash of the unit gives it its history back.  The
set of a branch depends on the global history and on the targets of the last indirect branches.
-/
import Gem5.BPredUnit

namespace Gem5.BranchPrediction

open Runs

/-! ## The predictor -/

/-- The parameters of a `SimpleIndirectPredictor`. -/
structure IndirectParams where
  indirectHashGHR : Bool
  indirectHashTargets : Bool
  indirectSets : ℕ
  indirectWays : ℕ
  indirectTagSize : ℕ
  indirectPathLength : ℕ
  indirectGHRBits : ℕ
  instShiftAmt : ℕ
  deriving DecidableEq, Repr

/-- `IPredEntry` -/
structure IPredEntry (PC : Type) where
  tag : BitVec 64
  target : PC
  deriving DecidableEq, Repr

/-- `HistoryEntry` -/
structure HistoryEntry where
  pcAddr : BitVec 64
  targetAddr : BitVec 64
  seqNum : ℕ
  deriving DecidableEq, Repr

/-- The histories that select a set: the directions of the branches, and the targets of the indirect
ones, the last one at the end. -/
@[ext]
structure Histories where
  ghr : BitVec 32
  pathHist : List HistoryEntry
  deriving DecidableEq, Repr

/-- `ThreadInfo` -/
structure ThreadInfo extends Histories where
  headHistEntry : ℕ
  deriving DecidableEq, Repr

/-- The panic and the fatal error of the constructor, the assertions, a division by zero, and an
access to an empty path history. -/
inductive IndirectFail where
  | numSets
  | ghrSize
  | divisionByZero
  | setIndex
  | noHistory
  | otherBranch
  deriving DecidableEq, Repr

namespace IndirectParams

/-- The checks of the constructor. -/
def check (p : IndirectParams) : Except IndirectFail Unit := do
  require .numSets (p.indirectSets ≠ 0 && p.indirectSets &&& (p.indirectSets - 1) = 0)
  require .ghrSize (p.indirectGHRBits ≤ 32)

/-- `ghrMask` -/
def ghrMask (p : IndirectParams) : BitVec 32 := (1 <<< p.indirectGHRBits) - 1

/-- `getTag(br_addr)` -/
def getTag (p : IndirectParams) (br_addr : BitVec 64) : BitVec 64 :=
  (br_addr >>> p.instShiftAmt) &&& ((1 <<< p.indirectTagSize) - 1)

/-- The last targets in the hash of `getSetIndex`, the youngest first. -/
def hashPath (p : IndirectParams) (hash : BitVec 64) (pathHist : List HistoryEntry) :
    Except IndirectFail (BitVec 64) :=
  if p.indirectHashTargets then do
    require .divisionByZero (p.indirectPathLength ≠ 0)
    let hash_shift := Nat.log2 p.indirectSets / p.indirectPathLength
    return ((pathHist.reverse.take p.indirectPathLength).zipIdx).foldl
      (fun (hash : BitVec 64) (e : HistoryEntry × ℕ) =>
        hash ^^^ (e.1.targetAddr >>> (p.instShiftAmt + e.2 * hash_shift))) hash
  else .ok hash

/-- `getSetIndex(br_addr, ghr, tid)` -/
def getSetIndex (p : IndirectParams) (br_addr : BitVec 64) (h : Histories) :
    Except IndirectFail ℕ := do
  let hash := br_addr >>> p.instShiftAmt
  let hash := if p.indirectHashGHR then hash ^^^ h.ghr.setWidth 64 else hash
  let hash ← p.hashPath hash h.pathHist
  return (hash &&& BitVec.ofNat 64 (p.indirectSets - 1)).toNat

end IndirectParams

namespace ThreadInfo

/-- `updateDirectionInfo(tid, actually_taken)` -/
def updateDirectionInfo (t_info : ThreadInfo) (p : IndirectParams) (actually_taken : Bool) :
    ThreadInfo :=
  { t_info with
    ghr := ((t_info.ghr <<< 1) ||| (BitVec.ofBool actually_taken).setWidth 32) &&& p.ghrMask }

/-- `changeDirectionPrediction(tid, indirect_history, actually_taken)` -/
def changeDirectionPrediction (t_info : ThreadInfo) (p : IndirectParams)
    (indirect_history : BitVec 32) (actually_taken : Bool) : ThreadInfo :=
  { t_info with
    ghr := ((indirect_history <<< 1) + (BitVec.ofBool actually_taken).setWidth 32) &&& p.ghrMask }

/-- `recordIndirect(br_addr, tgt_addr, seq_num, tid)` -/
def recordIndirect (t_info : ThreadInfo) (br_addr tgt_addr : BitVec 64) (seq_num : ℕ) :
    ThreadInfo :=
  { t_info with pathHist := t_info.pathHist ++ [⟨br_addr, tgt_addr, seq_num⟩] }

/-- `commit(seq_num, tid, indirect_history)` -/
def commit (t_info : ThreadInfo) (p : IndirectParams) (seq_num : ℕ) : ThreadInfo :=
  match t_info.pathHist[t_info.headHistEntry]? with
  | none => t_info
  | some entry =>
      if entry.seqNum ≤ seq_num then
        if t_info.headHistEntry ≥ p.indirectPathLength then
          { t_info with pathHist := t_info.pathHist.tail }
        else { t_info with headHistEntry := t_info.headHistEntry + 1 }
      else t_info

/-- `squash(seq_num, tid)` -/
def squash (t_info : ThreadInfo) (seq_num : ℕ) : ThreadInfo :=
  { t_info with pathHist := t_info.pathHist.takeWhile (·.seqNum ≤ seq_num) }

/-- `deleteIndirectInfo(tid, indirect_history)` -/
def deleteIndirectInfo (t_info : ThreadInfo) (indirect_history : BitVec 32) : ThreadInfo :=
  { t_info with ghr := indirect_history }

end ThreadInfo

/-! ## The sets -/

section Sets

variable {PC : Type}

/-- The loop of `recordTarget` over the ways: the target of the first one with the tag, if any. -/
def updateWay (tag : BitVec 64) (target : PC) :
    List (IPredEntry PC) → Option (List (IPredEntry PC))
  | [] => none
  | way :: iset =>
      if way.tag = tag then some ({ way with target := target } :: iset)
      else (updateWay tag target iset).map (way :: ·)

/-- A set that gets a target; `rand` is what `rand()` returns. -/
def trainSet (numWays : ℕ) (tag : BitVec 64) (target : PC) (rand : ℕ)
    (iset : List (IPredEntry PC)) : Except IndirectFail (List (IPredEntry PC)) :=
  match updateWay tag target iset with
  | some iset => .ok iset
  | none => do
      require .divisionByZero (numWays ≠ 0)
      return iset.set (rand % numWays) ⟨tag, target⟩

/-- `targetCache`, by set. -/
abbrev TargetCache (PC : Type) := ℕ → List (IPredEntry PC)

/-- `lookup(br_addr, target, tid)` -/
def TargetCache.lookup (c : TargetCache PC) (p : IndirectParams) (br_addr : BitVec 64)
    (h : Histories) : Except IndirectFail (Option PC) := do
  let set_index ← p.getSetIndex br_addr h
  require .setIndex (set_index < p.indirectSets)
  return ((c set_index).find? (·.tag = p.getTag br_addr)).map (·.target)

/-- `recordTarget(seq_num, indirect_history, target, tid)`: the cache, and the path history. -/
def TargetCache.recordTarget (c : TargetCache PC) (p : IndirectParams) (instAddr : PC → BitVec 64)
    (t_info : ThreadInfo) (indirect_history : BitVec 32) (target : PC) (rand : ℕ) :
    Except IndirectFail (TargetCache PC × ThreadInfo) := do
  let hist_entry ← orFail .noHistory t_info.pathHist.getLast?
  let pathHist := t_info.pathHist.dropLast
  let set_index ← p.getSetIndex hist_entry.pcAddr ⟨indirect_history, pathHist⟩
  let hist_entry' := { hist_entry with targetAddr := instAddr target }
  require .setIndex (set_index < p.indirectSets)
  let iset ← trainSet p.indirectWays (p.getTag hist_entry.pcAddr) target rand (c set_index)
  return (Function.update c set_index iset, { t_info with pathHist := pathHist ++ [hist_entry'] })

end Sets

/-! ## The unit -/

variable {PC : Type} {n : ℕ} [NeZero n]

/-- `PredictorHistory` with what its `indirectHistory` points to. -/
structure IndirectRecord (PC : Type) (n : ℕ) extends PredictorHistory PC n where
  indirectHistory : BitVec 32

/-- `BPredUnit` with a `SimpleIndirectPredictor`, for one thread; the records youngest first. -/
structure IndirectUnit (PC : Type) (n : ℕ) where
  ras : ReturnAddrStack PC n
  predHist : List (IndirectRecord PC n)
  info : ThreadInfo
  targetCache : TargetCache PC

namespace IndirectUnit

variable (p : IndirectParams) (instAddr : PC → BitVec 64)

/-- The unit after the constructors. -/
def init [Zero PC] : IndirectUnit PC n where
  ras := .init
  predHist := []
  info := ⟨⟨0, []⟩, 0⟩
  targetCache := fun _ => List.replicate p.indirectWays ⟨0, 0⟩

/-- Whether `predict` asks the indirect predictor. -/
def asksIndirect (inst : StaticInst PC) (ans : Answers PC) : Bool :=
  predictsTaken inst ans && !inst.isReturn && !inst.isDirectCtrl

/-- What the indirect predictor answers, if it is asked. -/
def answer (u : IndirectUnit PC n) (inst : StaticInst PC) (pc : PC) (ans : Answers PC) :
    Except IndirectFail (Option PC) :=
  if asksIndirect inst ans then u.targetCache.lookup p (instAddr pc) u.info.toHistories
  else .ok none

/-- What a prediction records in the indirect predictor. -/
def recordPrediction (info : ThreadInfo) (inst : StaticInst PC) (seqNum : ℕ) (pc : PC)
    (ans : Answers PC) (prediction : Prediction PC n) : ThreadInfo :=
  let info := if prediction.record.wasIndirect then
    info.recordIndirect (instAddr pc) (instAddr prediction.target) seqNum
  else info
  info.updateDirectionInfo p (predictsTaken inst ans)

/-- The prediction with the answer of the indirect predictor, and its record. -/
def recordAnswer [Zero PC] (u : IndirectUnit PC n) (inst : StaticInst PC) (seqNum : ℕ) (pc : PC)
    (ans : Answers PC) (answer : Option PC) : IndirectUnit PC n × Prediction PC n :=
  let prediction := BranchPrediction.predict inst seqNum pc { ans with iPred := some answer } u.ras
  ({ u with
    ras := prediction.ras
    predHist := { prediction.record with indirectHistory := u.info.ghr } :: u.predHist
    info := recordPrediction p instAddr u.info inst seqNum pc ans prediction }, prediction)

/-- `predict(inst, seqNum, pc, tid)`; `ans` has the answers of the direction predictor and the BTB.
-/
def predict [Zero PC] (u : IndirectUnit PC n) (inst : StaticInst PC) (seqNum : ℕ) (pc : PC)
    (ans : Answers PC) : Except IndirectFail (IndirectUnit PC n × Prediction PC n) := do
  let answer ← u.answer p instAddr inst pc ans
  return u.recordAnswer p instAddr inst seqNum pc ans answer

/-- `update(done_sn, tid)`: the oldest predictions are committed, one call for each. -/
def update (u : IndirectUnit PC n) (done_sn : ℕ) : IndirectUnit PC n :=
  { u with
    predHist := u.predHist.rdropWhile (·.seqNum ≤ done_sn)
    info := (u.predHist.rtakeWhile (·.seqNum ≤ done_sn)).foldl
      (fun info _ => info.commit p done_sn) u.info }

/-- The loop of `squash`: the predictions younger than `squashed_sn`, youngest first. -/
def squashLoop (squashed_sn : ℕ) : List (IndirectRecord PC n) → ReturnAddrStack PC n →
    ThreadInfo → List (IndirectRecord PC n) × ReturnAddrStack PC n × ThreadInfo
  | [], ras, info => ([], ras, info)
  | r :: pred_hist, ras, info =>
      if r.seqNum > squashed_sn then
        squashLoop squashed_sn pred_hist (undo r.toPredictorHistory ras)
          (info.deleteIndirectInfo r.indirectHistory)
      else (r :: pred_hist, ras, info)

/-- `squash(squashed_sn, tid)` -/
def squash (u : IndirectUnit PC n) (squashed_sn : ℕ) : IndirectUnit PC n :=
  let (predHist, ras, info) := squashLoop squashed_sn u.predHist u.ras (u.info.squash squashed_sn)
  { u with predHist := predHist, ras := ras, info := info }

/-- The record of the mispredicted branch, and the stack. -/
def resolveFront (r : IndirectRecord PC n) (corrTarget : PC) (actually_taken : Bool)
    (ras : ReturnAddrStack PC n) : IndirectRecord PC n × ReturnAddrStack PC n :=
  let (history, ras) := resolve r.toPredictorHistory corrTarget actually_taken ras
  ({ history with indirectHistory := r.indirectHistory }, ras)

/-- The target of a taken indirect branch, for the indirect predictor. -/
def correctTarget (c : TargetCache PC) (info : ThreadInfo) (r : IndirectRecord PC n)
    (corrTarget : PC) (actually_taken : Bool) (rand : ℕ) :
    Except IndirectFail (TargetCache PC × ThreadInfo) :=
  if actually_taken && r.wasIndirect then
    c.recordTarget p instAddr info r.indirectHistory corrTarget rand
  else .ok (c, info)

/-- The second half of `squash` with a corrected target, after the other branches are gone. -/
def fixUp (u : IndirectUnit PC n) (squashed_sn : ℕ) (corrTarget : PC) (actually_taken : Bool)
    (rand : ℕ) : Except IndirectFail (IndirectUnit PC n) :=
  match u.predHist with
  | [] => .ok u
  | r :: pred_hist => do
      require .otherBranch (r.seqNum = squashed_sn)
      let info := u.info.changeDirectionPrediction p r.indirectHistory actually_taken
      let (targetCache, info) ← correctTarget p instAddr u.targetCache info r corrTarget
        actually_taken rand
      let (r', ras) := resolveFront r corrTarget actually_taken u.ras
      return ⟨ras, r' :: pred_hist, info, targetCache⟩

end IndirectUnit

end Gem5.BranchPrediction
