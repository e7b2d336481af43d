/-
# The reorder buffer and its SMT partitioning

Embedding of `cpu/o3/rob.cc`: the per-thread instruction lists, the limits
`maxEntries` that the three sharing policies compute, insertion, retirement,
squashing and the re-partitioning done by `resetEntries`.

The shared capacity `numEntries` is asserted only in `insertInst`; admission
(`numFreeEntries(tid) > 0`, sent to rename by commit) looks at one thread's
limit.  The two agree exactly when the limits *cover* the buffer: every thread
holds at most its limit and the limits add up to at most `numEntries`
(`RobPartition.lean`).
-/
import Gem5.Runs
import Gem5.Types

namespace Gem5.Rob

/-! ## Data model -/

/-- The constructor parameters that the partitioning reads.  `numEntries` is an
`unsigned`; `smtROBThreshold` is a signed parameter. -/
structure Params where
  robPolicy : SMTQueuePolicy
  numEntries : ℕ
  squashWidth : ℕ
  smtROBThreshold : ℤ
  numEntries_lt : numEntries < 2 ^ 32

/-- The part of a dynamic instruction that the buffer reads and writes. -/
structure RobInst where
  seqNum : InstSeqNum
  squashed : Bool
  canCommit : Bool
  deriving DecidableEq, Repr

/-- Where the squash iterator of a thread points: past the end, at a position of
the instruction list (counted from the oldest), or at a node that was erased. -/
inductive SquashIt where
  | atEnd
  | at (i : ℕ)
  | dangling
  deriving DecidableEq, Repr

/-- Per-thread status of the buffer. -/
inductive Status where
  | Running
  | Idle
  | ROBSquashing
  deriving DecidableEq, Repr

/-- The reorder buffer of `n` hardware threads.  The oldest instruction of a
thread is the head of its list. -/
structure ROB (n : ℕ) where
  robStatus : Fin n → Status
  activeThreads : List (Fin n)
  threadEntries : Fin n → ℕ
  maxEntries : Fin n → ℕ
  instList : Fin n → List RobInst
  squashIt : Fin n → SquashIt
  squashedSeqNum : Fin n → InstSeqNum
  doneSquashing : Fin n → Bool
  numInstsInROB : ℕ

/-- The assertions of the buffer, and the undefined accesses. -/
inductive Fault where
  /-- `assert(numInstsInROB != numEntries)` in `insertInst` -/
  | robFull
  /-- `assert((*head) == inst)` in `insertInst` -/
  | headMismatch
  /-- `assert(numInstsInROB > 0)` in `retireHead` -/
  | robEmpty
  /-- the erased head of an empty thread list in `retireHead` -/
  | threadEmpty
  /-- `assert(head_inst->readyToCommit())` in `retireHead` -/
  | notReadyToCommit
  /-- `assert(squashIt[tid] != instList[tid].end())` in `doSquash` -/
  | squashItAtEnd
  /-- the squash iterator was erased or lies outside the list -/
  | squashItInvalid
  deriving DecidableEq, Repr

variable {n : ℕ}

/-! ## Construction and re-partitioning -/

/-- The limit every thread gets from the `ROB` constructor. -/
def initialLimit (p : Params) (n : ℕ) : ℕ :=
  match p.robPolicy with
  | .Dynamic => p.numEntries
  | .Partitioned => p.numEntries / n
  | .Threshold => (p.smtROBThreshold % 2 ^ 32).toNat

/-- The `ROB` constructor, ending in `resetState`. -/
def init (p : Params) (n : ℕ) : ROB n where
  robStatus := fun _ => .Running
  activeThreads := []
  threadEntries := fun _ => 0
  maxEntries := fun _ => initialLimit p n
  instList := fun _ => []
  squashIt := fun _ => .atEnd
  squashedSeqNum := fun _ => 0
  doneSquashing := fun _ => true
  numInstsInROB := 0

/-- The limit `resetEntries` stores for one active thread. -/
def resetLimit (p : Params) (active : List (Fin n)) (old : ℕ) : ℕ :=
  if p.robPolicy = .Partitioned then p.numEntries / active.length
  else if p.robPolicy = .Threshold ∧ active.length = 1 then p.numEntries
  else old

/-- `ROB::resetEntries`: recompute the limits of the active threads. -/
def resetEntries (p : Params) (s : ROB n) : ROB n :=
  if p.robPolicy ≠ .Dynamic ∨ n > 1 then
    { s with
      maxEntries := fun tid =>
        if tid ∈ s.activeThreads then resetLimit p s.activeThreads (s.maxEntries tid)
        else s.maxEntries tid }
  else s

/-- A change of the active-thread list followed by `resetEntries`
(`Commit::startupStage`, `CPU::insertThread`). -/
def setActiveThreads (p : Params) (s : ROB n) (active : List (Fin n)) : ROB n :=
  resetEntries p { s with activeThreads := active }

/-! ## Queries -/

/-- `ROB::numFreeEntries(tid)`, an `unsigned` difference. -/
def numFreeEntries (s : ROB n) (tid : Fin n) : ℕ :=
  unsignedSub (s.maxEntries tid) (s.threadEntries tid)

/-- `ROB::isEmpty(tid)` -/
def isEmpty (s : ROB n) (tid : Fin n) : Bool := s.threadEntries tid = 0

/-! ## Insertion and retirement -/

/-- `ROB::insertInst` -/
def insertInst (p : Params) (s : ROB n) (tid : Fin n) (inst : RobInst) :
    Except Fault (ROB n) :=
  if s.numInstsInROB = p.numEntries then .error .robFull
  else
    let list := s.instList tid ++ [inst]
    -- the global head is set to the front of the list when the buffer was empty
    if s.numInstsInROB = 0 ∧ list.head? ≠ some inst then .error .headMismatch
    else .ok { s with
      instList := Function.update s.instList tid list
      numInstsInROB := s.numInstsInROB + 1
      threadEntries := Function.update s.threadEntries tid (s.threadEntries tid + 1) }

/-- A squash iterator after the node in front of it, or its own, was erased. -/
def SquashIt.eraseFront : SquashIt → SquashIt
  | .at 0 => .dangling
  | .at (i + 1) => .at i
  | it => it

/-- `ROB::retireHead` -/
def retireHead (s : ROB n) (tid : Fin n) : Except Fault (ROB n) :=
  if s.numInstsInROB = 0 then .error .robEmpty
  else
    match s.instList tid with
    | [] => .error .threadEmpty
    | head :: rest =>
        if head.canCommit then
          .ok { s with
            instList := Function.update s.instList tid rest
            numInstsInROB := s.numInstsInROB - 1
            threadEntries := Function.update s.threadEntries tid (s.threadEntries tid - 1)
            squashIt := Function.update s.squashIt tid (s.squashIt tid).eraseFront }
        else .error .notReadyToCommit

/-- Completion of an instruction, `setCanCommit` from `Commit::markCompletedInsts`. -/
def markCompleted (s : ROB n) (tid : Fin n) (seq : InstSeqNum) : ROB n :=
  { s with
    instList := Function.update s.instList tid
      ((s.instList tid).map fun i => if i.seqNum = seq then { i with canCommit := true } else i) }

/-! ## Squashing -/

/-- The `for` loop of `doSquash`: mark up to `fuel` instructions younger than
`squashedSeqNum`, walking towards the oldest.  The Boolean is the early return
taken when the front of the list is reached. -/
def squashLoop (squashedSeqNum : InstSeqNum) : ℕ → List RobInst → ℕ →
    Except Fault (List RobInst × SquashIt × Bool)
  | 0, list, i => .ok (list, .at i, false)
  | fuel + 1, list, i =>
      match list[i]? with
      | none => .error .squashItInvalid
      | some inst =>
          if inst.seqNum > squashedSeqNum then
            let list' := list.set i { inst with squashed := true, canCommit := true }
            match i with
            | 0 => .ok (list', .atEnd, true)
            | i' + 1 => squashLoop squashedSeqNum fuel list' i'
          else .ok (list, .at i, false)

/-- The end of `doSquash`, after the loop: the squash is done when the loop
reached the front of the list or an instruction that is old enough. -/
def finishSquash (s : ROB n) (tid : Fin n) (list : List RobInst) (it : SquashIt)
    (atFront : Bool) : Except Fault (ROB n) :=
  let s' : ROB n := { s with instList := Function.update s.instList tid list }
  let finished : ROB n := { s' with
    squashIt := Function.update s.squashIt tid .atEnd
    doneSquashing := Function.update s.doneSquashing tid true }
  if atFront then .ok finished
  else
    match it with
    | .at j =>
        match list[j]? with
        | none => .error .squashItInvalid
        | some cur =>
            if cur.seqNum ≤ s.squashedSeqNum tid then .ok finished
            else .ok { s' with squashIt := Function.update s.squashIt tid it }
    | _ => .error .squashItInvalid

/-- `ROB::doSquash`; `exiting` is the answer of `cpu->isThreadExiting(tid)`. -/
def doSquash (p : Params) (s : ROB n) (tid : Fin n) (exiting : Bool) :
    Except Fault (ROB n) :=
  match s.squashIt tid with
  | .atEnd => .error .squashItAtEnd
  | .dangling => .error .squashItInvalid
  | .at i =>
      match (s.instList tid)[i]? with
      | none => .error .squashItInvalid
      | some inst =>
          if inst.seqNum < s.squashedSeqNum tid then
            .ok { s with
              squashIt := Function.update s.squashIt tid .atEnd
              doneSquashing := Function.update s.doneSquashing tid true }
          else
            -- an exiting thread squashes everything at once
            match squashLoop (s.squashedSeqNum tid)
                (if exiting then p.numEntries else p.squashWidth) (s.instList tid) i with
            | .error e => .error e
            | .ok (list, it, atFront) => finishSquash s tid list it atFront

/-- `ROB::squash` -/
def squash (p : Params) (s : ROB n) (squash_num : InstSeqNum) (tid : Fin n) (exiting : Bool) :
    Except Fault (ROB n) :=
  if isEmpty s tid then .ok s
  else
    let s' : ROB n := { s with
      robStatus := Function.update s.robStatus tid .ROBSquashing
      doneSquashing := Function.update s.doneSquashing tid false
      squashedSeqNum := Function.update s.squashedSeqNum tid squash_num }
    if (s'.instList tid).isEmpty then .ok s'
    else
      doSquash p
        { s' with
          squashIt := Function.update s'.squashIt tid (.at ((s'.instList tid).length - 1)) }
        tid exiting

/-! ## The buffer as a state machine -/

/-- What the pipeline does to the buffer. -/
inductive Action (n : ℕ) where
  | insertInst (tid : Fin n) (inst : RobInst)
  | retireHead (tid : Fin n)
  | markCompleted (tid : Fin n) (seq : InstSeqNum)
  | squash (squash_num : InstSeqNum) (tid : Fin n) (exiting : Bool)
  | doSquash (tid : Fin n) (exiting : Bool)
  | setActiveThreads (active : List (Fin n))

/-- One action. -/
def step (p : Params) (s : ROB n) : Action n → Except Fault (ROB n)
  | .insertInst tid inst => insertInst p s tid inst
  | .retireHead tid => retireHead s tid
  | .markCompleted tid seq => .ok (markCompleted s tid seq)
  | .squash squash_num tid exiting => squash p s squash_num tid exiting
  | .doSquash tid exiting => doSquash p s tid exiting
  | .setActiveThreads active => .ok (setActiveThreads p s active)

/-- Admission: commit inserts an instruction of a thread only while that thread
has free entries. -/
def admitted (s : ROB n) : Action n → Prop
  | .insertInst tid _ => 0 < numFreeEntries s tid
  | _ => True

instance (s : ROB n) : DecidablePred (admitted s)
  | .insertInst tid _ => inferInstanceAs (Decidable (0 < numFreeEntries s tid))
  | .retireHead _ | .markCompleted _ _ | .squash _ _ _ | .doSquash _ _ | .setActiveThreads _ =>
      inferInstanceAs (Decidable True)

end Gem5.Rob
