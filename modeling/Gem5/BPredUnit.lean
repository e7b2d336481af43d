/-
# Branch prediction with a return address stack

Embedding of `ReturnAddrStack` (`cpu/pred/ras.cc`) and of `BPredUnit::predict`, `update`
and both `squash` (`cpu/pred/bpred_unit.cc`).  What the direction predictor, the BTB and
the indirect predictor answer is an argument of a prediction; a squash gives each
prediction's effect on the return address stack back.
-/
import Gem5.Runs

namespace Gem5.BranchPrediction

open Runs

/-! ## The return address stack -/

/-- `ReturnAddrStack`.  Indices are in `Fin numEntries`, where `incrTos` and `decrTos` are
addition and subtraction of one. -/
structure ReturnAddrStack (PC : Type) (numEntries : ℕ) where
  addrStack : Fin numEntries → PC
  usedEntries : ℕ
  tos : Fin numEntries
  used_le : usedEntries ≤ numEntries

variable {PC : Type} {n : ℕ} [NeZero n]

namespace ReturnAddrStack

/-- `init` and `reset` -/
def init [Zero PC] : ReturnAddrStack PC n := ⟨fun _ => 0, 0, 0, Nat.zero_le n⟩

/-- `top` -/
def top (ras : ReturnAddrStack PC n) : PC := ras.addrStack ras.tos

/-- `topIdx` -/
def topIdx (ras : ReturnAddrStack PC n) : Fin n := ras.tos

/-- `push` -/
def push (ras : ReturnAddrStack PC n) (return_addr : PC) : ReturnAddrStack PC n where
  addrStack := Function.update ras.addrStack (ras.tos + 1) return_addr
  usedEntries := if ras.usedEntries ≠ n then ras.usedEntries + 1 else ras.usedEntries
  tos := ras.tos + 1
  used_le := by
    have := ras.used_le
    split <;> omega

/-- `pop` -/
def pop (ras : ReturnAddrStack PC n) : ReturnAddrStack PC n where
  addrStack := ras.addrStack
  usedEntries := if ras.usedEntries > 0 then ras.usedEntries - 1 else ras.usedEntries
  tos := ras.tos - 1
  used_le := by
    have := ras.used_le
    split <;> omega

/-- `restore` -/
def restore (ras : ReturnAddrStack PC n) (top_entry_idx : Fin n) (restored : PC) :
    ReturnAddrStack PC n where
  addrStack := Function.update ras.addrStack top_entry_idx restored
  usedEntries := if ras.usedEntries ≠ n then ras.usedEntries + 1 else ras.usedEntries
  tos := top_entry_idx
  used_le := by
    have := ras.used_le
    split <;> omega

/-- The logical stack: the entries in use, from `tos` downwards. -/
def live (ras : ReturnAddrStack PC n) : List PC :=
  (List.range ras.usedEntries).map fun i => ras.addrStack (ras.tos - Fin.ofNat n i)

end ReturnAddrStack

/-! ## Predictions -/

/-- What a prediction asks a static instruction. -/
structure StaticInst (PC : Type) where
  isUncondCtrl : Bool
  isCall : Bool
  isReturn : Bool
  isDirectCtrl : Bool
  buildRetPC : PC → PC → PC
  advancePC : PC → PC

/-- What the direction predictor answers, the BTB, and the indirect predictor, if there is
one. -/
structure Answers (PC : Type) where
  lookup : Bool
  BTB : Option PC
  iPred : Option (Option PC)

/-- The target that the indirect predictor or the BTB has. -/
def Answers.target {PC : Type} (ans : Answers PC) (indirect : Bool) : Option PC :=
  if indirect then ans.iPred.join else ans.BTB

/-- `PredictorHistory` -/
structure PredictorHistory (PC : Type) (n : ℕ) where
  seqNum : ℕ
  pc : PC
  RASTarget : PC
  RASIndex : Fin n
  predTaken : Bool
  usedRAS : Bool
  pushedRAS : Bool
  wasCall : Bool
  wasReturn : Bool
  wasIndirect : Bool
  target : PC

/-- The constructor; the target is set at the end of `predict`. -/
def PredictorHistory.create [Zero PC] (seqNum : ℕ) (pc : PC) (pred_taken : Bool) :
    PredictorHistory PC n where
  seqNum := seqNum
  pc := pc
  RASTarget := 0
  RASIndex := 0
  predTaken := pred_taken
  usedRAS := false
  pushedRAS := false
  wasCall := false
  wasReturn := false
  wasIndirect := false
  target := pc

/-- What `predict` returns, and what it leaves. -/
structure Prediction (PC : Type) (n : ℕ) where
  taken : Bool
  target : PC
  record : PredictorHistory PC n
  ras : ReturnAddrStack PC n

/-- A return predicted taken pops its target. -/
def predictReturn (inst : StaticInst PC) (pc : PC) (record : PredictorHistory PC n)
    (ras : ReturnAddrStack PC n) : Prediction PC n where
  taken := true
  target := inst.buildRetPC pc ras.top
  record := { record with
    wasReturn := true
    usedRAS := true
    RASIndex := ras.topIdx
    RASTarget := ras.top
    target := inst.buildRetPC pc ras.top }
  ras := ras.pop

/-- No target was found: the branch is predicted not taken after all, and a conditional call
gives its entry back. -/
def predictMiss (inst : StaticInst PC) (pc : PC) (record : PredictorHistory PC n)
    (ras : ReturnAddrStack PC n) : Prediction PC n :=
  let giveBack := inst.isCall && !inst.isUncondCtrl
  { taken := false
    target := inst.advancePC pc
    record := { record with
      predTaken := false
      pushedRAS := record.pushedRAS && !giveBack
      target := inst.advancePC pc }
    ras := if giveBack then ras.pop else ras }

/-- A branch other than a return, predicted taken: a call pushes its address, then the BTB or
the indirect predictor is asked for the target. -/
def predictTarget (inst : StaticInst PC) (pc : PC) (ans : Answers PC)
    (record : PredictorHistory PC n) (ras : ReturnAddrStack PC n) : Prediction PC n :=
  let indirect := !(inst.isDirectCtrl || ans.iPred.isNone)
  let ras' := if inst.isCall then ras.push pc else ras
  let record' := { record with
    pushedRAS := inst.isCall
    wasCall := inst.isCall
    wasIndirect := indirect }
  match ans.target indirect with
  | some target =>
      { taken := true, target := target, record := { record' with target := target }, ras := ras' }
  | none => predictMiss inst pc record' ras'

/-- A branch predicted not taken. -/
def predictNotTaken (inst : StaticInst PC) (pc : PC) (record : PredictorHistory PC n)
    (ras : ReturnAddrStack PC n) : Prediction PC n where
  taken := false
  target := inst.advancePC pc
  record := { record with wasReturn := inst.isReturn, target := inst.advancePC pc }
  ras := ras

/-- The direction that is predicted first. -/
def predictsTaken (inst : StaticInst PC) (ans : Answers PC) : Bool :=
  inst.isUncondCtrl || ans.lookup

/-- `predict` -/
def predict [Zero PC] (inst : StaticInst PC) (seqNum : ℕ) (pc : PC) (ans : Answers PC)
    (ras : ReturnAddrStack PC n) : Prediction PC n :=
  let record := .create seqNum pc (predictsTaken inst ans)
  if predictsTaken inst ans then
    if inst.isReturn then predictReturn inst pc record ras
    else predictTarget inst pc ans record ras
  else predictNotTaken inst pc record ras

/-! ## Squashes -/

/-- What a squash does for one removed prediction. -/
def undo (r : PredictorHistory PC n) (ras : ReturnAddrStack PC n) : ReturnAddrStack PC n :=
  if r.usedRAS then ras.restore r.RASIndex r.RASTarget
  else if r.wasCall && r.pushedRAS then ras.pop
  else ras

/-- `squash`: the predictions younger than `squashed_sn`, youngest first. -/
def squashHistory (squashed_sn : ℕ) : List (PredictorHistory PC n) → ReturnAddrStack PC n →
    List (PredictorHistory PC n) × ReturnAddrStack PC n
  | [], ras => ([], ras)
  | r :: pred_hist, ras =>
      if r.seqNum > squashed_sn then squashHistory squashed_sn pred_hist (undo r ras)
      else (r :: pred_hist, ras)

/-- The second half of `squash` with a corrected target: the mispredicted branch itself. -/
def resolve (r : PredictorHistory PC n) (corrTarget : PC) (actually_taken : Bool)
    (ras : ReturnAddrStack PC n) : PredictorHistory PC n × ReturnAddrStack PC n :=
  let r' := { r with predTaken := actually_taken, target := corrTarget }
  if actually_taken then
    if r.wasReturn && !r.usedRAS then ({ r' with usedRAS := true }, ras.pop) else (r', ras)
  else if r.usedRAS then
    ({ r' with usedRAS := false }, ras.restore r.RASIndex r.RASTarget)
  else if r.wasCall && r.pushedRAS then ({ r' with pushedRAS := false }, ras.pop)
  else (r', ras)

/-! ## The unit -/

/-- `RAS[tid]` and `predHist[tid]`, youngest first. -/
structure ThreadPredictor (PC : Type) (n : ℕ) where
  ras : ReturnAddrStack PC n
  predHist : List (PredictorHistory PC n)

/-- `BPredUnit`, by thread. -/
abbrev BPredUnit (PC : Type) (n : ℕ) := ℕ → ThreadPredictor PC n

/-- A unit that has not predicted anything. -/
def BPredUnit.init [Zero PC] : BPredUnit PC n := fun _ => ⟨.init, []⟩

/-- `assert(pred_hist.front().seqNum == squashed_sn)` -/
inductive Fault where
  | otherBranch
  deriving DecidableEq, Repr

/-- Fix up the front of the history after a misprediction, if there is one. -/
def ThreadPredictor.fixUp (th : ThreadPredictor PC n) (squashed_sn : ℕ) (corrTarget : PC)
    (actually_taken : Bool) : Except Fault (ThreadPredictor PC n) :=
  match th.predHist with
  | [] => .ok th
  | r :: pred_hist => do
      require .otherBranch (r.seqNum = squashed_sn)
      let (r', ras) := resolve r corrTarget actually_taken th.ras
      return ⟨ras, r' :: pred_hist⟩

/-- `squash(squashed_sn, tid)` -/
def ThreadPredictor.squash (th : ThreadPredictor PC n) (squashed_sn : ℕ) :
    ThreadPredictor PC n :=
  let (pred_hist, ras) := squashHistory squashed_sn th.predHist th.ras
  ⟨ras, pred_hist⟩

/-- `update(done_sn, tid)`: the oldest predictions are committed. -/
def ThreadPredictor.update (th : ThreadPredictor PC n) (done_sn : ℕ) : ThreadPredictor PC n :=
  { th with predHist := th.predHist.rdropWhile (·.seqNum ≤ done_sn) }

/-- The calls of the unit. -/
inductive Action (PC : Type) where
  | predict (tid : ℕ) (inst : StaticInst PC) (seqNum : ℕ) (pc : PC) (ans : Answers PC)
  | squash (tid squashed_sn : ℕ)
  | mispredict (tid squashed_sn : ℕ) (corrTarget : PC) (actually_taken : Bool)
  | update (tid done_sn : ℕ)

/-- The thread a call is for. -/
def Action.tid : Action PC → ℕ
  | .predict tid _ _ _ _ => tid
  | .squash tid _ => tid
  | .mispredict tid _ _ _ => tid
  | .update tid _ => tid

/-- A call on the state of its thread. -/
def ThreadPredictor.call [Zero PC] (th : ThreadPredictor PC n) :
    Action PC → Except Fault (ThreadPredictor PC n)
  | .predict _ inst seqNum pc ans =>
      let p := BranchPrediction.predict inst seqNum pc ans th.ras
      .ok ⟨p.ras, p.record :: th.predHist⟩
  | .squash _ squashed_sn => .ok (th.squash squashed_sn)
  | .mispredict _ squashed_sn corrTarget actually_taken =>
      (th.squash squashed_sn).fixUp squashed_sn corrTarget actually_taken
  | .update _ done_sn => .ok (th.update done_sn)

/-- A call of the unit. -/
def step [Zero PC] (u : BPredUnit PC n) (a : Action PC) : Except Fault (BPredUnit PC n) := do
  let th ← (u a.tid).call a
  return Function.update u a.tid th

end Gem5.BranchPrediction
