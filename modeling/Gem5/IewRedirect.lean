/-
# Redirects of the execute stage

Embedding of `IEW::executeInsts`, `squashDueToBranch` and `squashDueToMemOrder` (`cpu/o3/iew.cc`),
with the ordering check of the load/store unit (`LSQUnit::checkViolations`, `cpu/o3/lsq_unit.cc`) as
far as it decides which load becomes the violator.  The instructions of a cycle come in any order
and from several threads; what executing them does to the data is left out, and so are the program
counters that go with a redirect.  A cycle begins with nothing sent to commit: that
`LSQUnit::writeback` may have called `checkMisprediction` in the same slot before is not modelled.
-/
import Gem5.LsqAccess

open Runs

namespace Gem5.Iew

/-! ## The ordering check -/

/-- What `checkViolations` asks of a load: its age, whether it is passed over because it has no
address yet or is strictly ordered, whether it shares a block with the instruction, and whether an
external snoop has hit it. -/
structure SeenLoad where
  seqNum : InstSeqNum
  ignored : Bool := false
  meets : Bool := true
  hitExternalSnoop : Bool := false
  deriving DecidableEq, Repr

/-- `checkViolations`: the load that becomes the violator, for an instruction that is a load or not
and in the presence of another violator. -/
def checkViolations (isLoad : Bool) (memDepViolator : Option InstSeqNum) :
    List SeenLoad → Option InstSeqNum
  | [] => none
  | ld :: loads =>
    if ld.ignored then checkViolations isLoad memDepViolator loads
    else if ld.meets then
      if isLoad then
        if ld.hitExternalSnoop && memDepViolator.all (ld.seqNum < ·) then some ld.seqNum
        else checkViolations isLoad memDepViolator loads
      else if memDepViolator.any (· < ld.seqNum) then none
      else some ld.seqNum
    else checkViolations isLoad memDepViolator loads

/-! ## The stage -/

/-- An instruction that is executed: `deferred` when its translation is delayed, `executed` and
`mispredicted` as they are once it has been executed, and the loads that the ordering check looks
at. -/
structure Inst where
  seqNum : InstSeqNum
  threadNumber : ℕ
  isSquashed : Bool := false
  isMemRef : Bool := false
  isLoad : Bool := false
  deferred : Bool := false
  executed : Bool := true
  mispredicted : Bool := false
  loads : List SeenLoad := []
  deriving DecidableEq, Repr

namespace Inst

/-- Whether the instruction gets past the squash and translation checks. -/
def active (inst : Inst) : Bool := !inst.isSquashed && !(inst.isMemRef && inst.deferred)

/-- A load that has not been executed is not tested. -/
def loadNotExecuted (inst : Inst) : Bool := !inst.executed && inst.isLoad

/-- Whether the instruction is found to be mispredicted. -/
def redirects (inst : Inst) : Bool := inst.mispredicted && !inst.loadNotExecuted

/-- The load against which the instruction raises a violation, when none is pending. -/
def conflict (inst : Inst) : Option InstSeqNum :=
  if inst.isMemRef then checkViolations inst.isLoad none inst.loads else none

end Inst

/-- What commit is told about a thread. -/
structure ToCommit where
  squash : Bool := false
  squashedSeqNum : InstSeqNum := 0
  includeSquashInst : Bool := false
  mispredictInst : Option InstSeqNum := none
  deriving DecidableEq, Repr

/-- `squashDueToBranch(inst, tid)` -/
def ToCommit.squashDueToBranch (r : ToCommit) (inst : InstSeqNum) : ToCommit :=
  if !r.squash || decide (inst < r.squashedSeqNum) then
    { squash := true, squashedSeqNum := inst, includeSquashInst := false,
      mispredictInst := some inst }
  else r

/-- `squashDueToMemOrder(inst, tid)` -/
def ToCommit.squashDueToMemOrder (r : ToCommit) (inst : InstSeqNum) : ToCommit :=
  if !r.squash || decide (inst ≤ r.squashedSeqNum) then
    { squash := true, squashedSeqNum := inst, includeSquashInst := true, mispredictInst := none }
  else r

/-- What the stage keeps for one thread, with the violator of its load/store unit. -/
structure Thread where
  toCommit : ToCommit := {}
  memDepViolator : Option InstSeqNum := none
  fetchRedirect : Bool := false
  deriving DecidableEq, Repr

/-- `assert(inst->isMemRef())` -/
inductive IewFail where
  | notMemRef
  deriving DecidableEq, Repr

namespace Thread

/-- The execution of a memory reference, as far as the violator is concerned. -/
def execute (t : Thread) (inst : Inst) : Thread :=
  if inst.isMemRef then
    { t with memDepViolator :=
        (checkViolations inst.isLoad t.memDepViolator inst.loads).or t.memDepViolator }
  else t

/-- `getMemDepViolator` and what follows it when the violation is handled. -/
def handleViolation (t : Thread) (inst : Inst) : Except IewFail Thread :=
  match t.memDepViolator with
  | none => .ok t
  | some violator => do
    require .notMemRef inst.isMemRef
    return { toCommit := t.toCommit.squashDueToMemOrder violator, memDepViolator := none,
             fetchRedirect := true }

/-- `getMemDepViolator` when there is a redirect already. -/
def dropViolation (t : Thread) (inst : Inst) : Except IewFail Thread :=
  match t.memDepViolator with
  | none => .ok t
  | some _ => do
    require .notMemRef inst.isMemRef
    return { t with memDepViolator := none }

/-- Whether the stage looks at the redirects of the instruction. -/
def considers (t : Thread) (inst : Inst) : Bool :=
  !t.fetchRedirect || !t.toCommit.squash || decide (t.toCommit.squashedSeqNum > inst.seqNum)

/-- The part of the loop of `executeInsts` after the execution. -/
def redirect (t : Thread) (inst : Inst) : Except IewFail Thread :=
  if t.considers inst then
    if inst.redirects then
      .ok { t with
        toCommit := t.toCommit.squashDueToBranch inst.seqNum
        fetchRedirect := true }
    else t.handleViolation inst
  else t.dropViolation inst

/-- One instruction of the thread. -/
def executeInst (t : Thread) (inst : Inst) : Except IewFail Thread :=
  if inst.active then (t.execute inst).redirect inst else .ok t

end Thread

/-- The loop of `executeInsts`, over the threads' states. -/
def executeInsts (s : ℕ → Thread) (insts : List Inst) : Except IewFail (ℕ → Thread) :=
  insts.foldlM (fun s inst => do
    let t ← (s inst.threadNumber).executeInst inst
    return Function.update s inst.threadNumber t) s

/-- A thread at the start of a cycle, in which no redirect has been sent to commit. -/
def Thread.start (memDepViolator : Option InstSeqNum) (fetchRedirect : Bool) : Thread :=
  { memDepViolator := memDepViolator, fetchRedirect := fetchRedirect }

/-- The threads at the start of the loop: `executeInsts` resets the flags of the active threads. -/
def cycleStart (memDepViolator : ℕ → Option InstSeqNum) (fetchRedirect : ℕ → Bool)
    (activeThreads : List ℕ) (tid : ℕ) : Thread :=
  Thread.start (memDepViolator tid) (if tid ∈ activeThreads then false else fetchRedirect tid)

/-! ## What the stage should send -/

/-- The instructions of thread `tid` that are executed. -/
def ofThread (tid : ℕ) (insts : List Inst) : List Inst :=
  insts.filter fun inst => inst.active && inst.threadNumber == tid

/-- A thread has to be redirected from `n`: one of its instructions is mispredicted at `n`, or
raises a violation against the load `n`. -/
def RedirectsFrom (insts : List Inst) (n : InstSeqNum) : Prop :=
  ∃ inst ∈ insts, (inst.redirects = true ∧ inst.seqNum = n) ∨ inst.conflict = some n

/-- One of a thread's instructions raises a violation against the load `n`. -/
def Violates (insts : List Inst) (n : InstSeqNum) : Prop :=
  ∃ inst ∈ insts, inst.conflict = some n

/-- **The oldest redirect**: there is one if there has to be, from the smallest number, and it takes
the instruction itself exactly if that is a violator. -/
structure Oldest (redirects violates : InstSeqNum → Prop) (r : ToCommit) : Prop where
  squash_iff : r.squash = true ↔ ∃ n, redirects n
  from_redirect : r.squash = true → redirects r.squashedSeqNum
  smallest : r.squash = true → ∀ n, redirects n → r.squashedSeqNum ≤ n
  includes_iff : r.squash = true → (r.includeSquashInst = true ↔ violates r.squashedSeqNum)

/-! ## When it does -/

/-- The violation `p` has been pending since before the cycle: all instructions of the thread so far
have been mispredicted, each older than those before it. -/
def Waits (pending : Option InstSeqNum) (before : List Inst) (p : InstSeqNum) : Prop :=
  pending = some p ∧ (∀ inst ∈ before, inst.redirects = true) ∧
    before.Pairwise fun inst inst' => inst'.seqNum < inst.seqNum

/-- **The violation `p` is taken up** although it is none of this cycle: a memory instruction that
is not mispredicted and is older than those before it comes upon it. -/
def TakenUp (pending : Option InstSeqNum) (insts : List Inst) (p : InstSeqNum) : Prop :=
  ∃ before inst after, insts = before ++ inst :: after ∧ Waits pending before p ∧
    inst.isMemRef = true ∧ inst.redirects = false ∧ ∀ inst' ∈ before, inst.seqNum < inst'.seqNum

/-- A thread has to be redirected, or has been because of a violation taken up. -/
def Redirected (pending : Option InstSeqNum) (before : List Inst) (n : InstSeqNum) : Prop :=
  RedirectsFrom before n ∨ TakenUp pending before n

/-- An instruction is mispredicted and older than everything from which its thread has been
redirected before it. -/
def Leads (pending : Option InstSeqNum) (before : List Inst) (inst : Inst) : Prop :=
  inst.redirects = true ∧ ∀ n, Redirected pending before n → inst.seqNum < n

/-- **A violation is left behind** in a thread: it was pending before the cycle, or an instruction
that raises one is itself mispredicted and the oldest so far; and all instructions after that are
mispredicted and the oldest so far, too. -/
inductive LeftBehind (pending : Option InstSeqNum) : List Inst → Prop
  | pending (hpending : pending ≠ none) : LeftBehind pending []
  | raised {before : List Inst} {inst : Inst} (hleads : Leads pending before inst)
      (hviolates : inst.conflict ≠ none) : LeftBehind pending (before ++ [inst])
  | led {before : List Inst} {inst : Inst} (hleads : Leads pending before inst)
      (hleft : LeftBehind pending before) : LeftBehind pending (before ++ [inst])

/-- **A non-memory instruction comes upon a violation** that has been left behind in its thread, and
is not itself mispredicted and the oldest so far. -/
def ComesUpon (pending : Option InstSeqNum) (before : List Inst) (inst : Inst) : Prop :=
  inst.isMemRef = false ∧ ¬ Leads pending before inst ∧ LeftBehind pending before

/-- The condition on the instructions of one thread: no non-memory instruction comes upon a
violation, and one that was pending before the cycle is taken up only if there is an older redirect,
or the same violation, in the cycle. -/
structure Harmless (pending : Option InstSeqNum) (insts : List Inst) : Prop where
  met : ∀ before inst after, insts = before ++ inst :: after → ¬ ComesUpon pending before inst
  taken : ∀ p, TakenUp pending insts p → (∃ n < p, RedirectsFrom insts n) ∨ Violates insts p

/-- The loads that the check looks at come in program order after the instruction. -/
def InOrder (inst : Inst) : Prop :=
  (∀ ld ∈ inst.loads, inst.seqNum < ld.seqNum) ∧
    inst.loads.Pairwise fun ld ld' => ld.seqNum < ld'.seqNum

/-! ## The violator -/

theorem checkViolations_mem {isLoad : Bool} {v : Option InstSeqNum} {n : InstSeqNum} :
    ∀ {loads : List SeenLoad}, checkViolations isLoad v loads = some n →
      ∃ ld ∈ loads, ld.seqNum = n := by
  intro loads h
  induction loads with
  | nil => cases h
  | cons ld loads ih =>
    have hrest : checkViolations isLoad v loads = some n → ∃ l ∈ ld :: loads, l.seqNum = n := by
      intro h
      obtain ⟨l, hl, hn⟩ := ih h
      exact ⟨l, List.mem_cons_of_mem ld hl, hn⟩
    unfold checkViolations at h
    split_ifs at h
    · exact hrest h
    · exact ⟨ld, List.mem_cons_self, Option.some.inj h⟩
    · exact hrest h
    · exact ⟨ld, List.mem_cons_self, Option.some.inj h⟩
    · exact hrest h

/-- A load is no violator for a load in the presence of an older one. -/
theorem checkViolations_ge {p : InstSeqNum} {loads : List SeenLoad}
    (h : ∀ ld ∈ loads, p ≤ ld.seqNum) : checkViolations true (some p) loads = none := by
  induction loads with
  | nil => rfl
  | cons ld loads ih =>
    have hrest := ih fun l hl => h l (List.mem_cons_of_mem ld hl)
    have hnot : ¬ ld.seqNum < p := not_lt.mpr (h ld List.mem_cons_self)
    simp [checkViolations, hrest, hnot]

/-- The violator that the check leaves: the older one of the pending violator and the one that
there would be without it. -/
theorem checkViolations_or (isLoad : Bool) (v : Option InstSeqNum) {loads : List SeenLoad}
    (h : loads.Pairwise fun ld ld' => ld.seqNum < ld'.seqNum) :
    (checkViolations isLoad v loads).or v = v.merge min (checkViolations isLoad none loads) := by
  cases v with
  | none => simp
  | some p =>
    induction loads with
    | nil => rfl
    | cons ld loads ih =>
      obtain ⟨hlater, hsorted⟩ := List.pairwise_cons.mp h
      unfold checkViolations
      by_cases hignored : ld.ignored
      · simpa [hignored] using ih hsorted
      by_cases hmeets : ld.meets
      · cases isLoad with
        | true =>
          by_cases hhit : ld.hitExternalSnoop
          · by_cases hlt : ld.seqNum < p
            · simp [hignored, hmeets, hhit, hlt, min_eq_right hlt.le]
            · have hrest : checkViolations true (some p) loads = none :=
                checkViolations_ge fun l hl => (not_lt.mp hlt).trans (hlater l hl).le
              simp [hignored, hmeets, hhit, hlt, hrest, min_eq_left (not_lt.mp hlt)]
          · simpa [hignored, hmeets, hhit] using ih hsorted
        | false =>
          by_cases hlt : p < ld.seqNum
          · simp [hignored, hmeets, hlt, min_eq_left hlt.le]
          · simp [hignored, hmeets, hlt, min_eq_right (not_lt.mp hlt)]
      · simpa [hignored, hmeets] using ih hsorted

theorem conflict_gt {inst : Inst} {n : InstSeqNum} (h : InOrder inst)
    (hn : inst.conflict = some n) : inst.seqNum < n := by
  unfold Inst.conflict at hn
  split_ifs at hn
  obtain ⟨ld, hld, rfl⟩ := checkViolations_mem hn
  exact h.1 ld hld

theorem conflict_eq_none {inst : Inst} (h : inst.isMemRef = false) : inst.conflict = none := by
  simp [Inst.conflict, h]

/-- The execution leaves the older one of the pending violator and the instruction's own. -/
theorem memDepViolator_execute (t : Thread) {inst : Inst} (h : InOrder inst) :
    t.execute inst = { t with memDepViolator := t.memDepViolator.merge min inst.conflict } := by
  unfold Thread.execute
  cases hmem : inst.isMemRef with
  | false => simp [conflict_eq_none hmem]
  | true => simp [Inst.conflict, hmem, checkViolations_or inst.isLoad t.memDepViolator h.2]

/-! ## The oldest redirect -/

section Oldest

variable {E V E' V' N : InstSeqNum → Prop} {r : ToCommit}

/-- Redirects that are younger than what has been sent change nothing. -/
theorem Oldest.keep (h : Oldest E V r)
    (hE : ∀ n, E' n → E n ∨ r.squash = true ∧ r.squashedSeqNum ≤ n)
    (hE' : ∀ n, E n → E' n) (hV : r.squash = true → (V' r.squashedSeqNum ↔ V r.squashedSeqNum)) :
    Oldest E' V' r where
  squash_iff := by
    refine ⟨fun hs => ⟨_, hE' _ (h.from_redirect hs)⟩, fun ⟨n, hn⟩ => ?_⟩
    rcases hE n hn with hn | ⟨hs, -⟩
    · exact h.squash_iff.mpr ⟨n, hn⟩
    · exact hs
  from_redirect hs := hE' _ (h.from_redirect hs)
  smallest hs n hn := by
    rcases hE n hn with hn | ⟨-, hle⟩
    · exact h.smallest hs n hn
    · exact hle
  includes_iff hs := (h.includes_iff hs).trans (hV hs).symm

/-- `squashDueToBranch` for an instruction that is older than all redirects. -/
theorem Oldest.branch (h : Oldest E V r) {k : InstSeqNum} (hlt : ∀ n, E n → k < n)
    (hVE : ∀ n, V n → E n) (hE : ∀ n, E' n → n = k ∨ k < n) (hk : E' k)
    (hV : V' k ↔ V k) :
    Oldest E' V' (r.squashDueToBranch k) ∧
      (r.squashDueToBranch k).squash = true ∧ (r.squashDueToBranch k).squashedSeqNum = k := by
  have htaken : (!r.squash || decide (k < r.squashedSeqNum)) = true := by
    cases hs : r.squash with
    | false => rfl
    | true => simpa using hlt _ (h.from_redirect hs)
  have hr : r.squashDueToBranch k = ⟨true, k, false, some k⟩ := if_pos htaken
  rw [hr]
  refine ⟨⟨⟨fun _ => ⟨k, hk⟩, fun _ => rfl⟩, fun _ => hk, fun _ n hn => ?_, fun _ => ?_⟩, rfl, rfl⟩
  · rcases hE n hn with rfl | hlt
    · exact le_rfl
    · exact hlt.le
  · have hnot : ¬ V' k := fun hv => (hlt k (hVE k (hV.mp hv))).false
    simpa using hnot

/-- `squashDueToMemOrder` for the oldest of several violators, or for a violator younger than what
has been sent. -/
theorem Oldest.memOrder (h : Oldest E V r) {k : InstSeqNum} (hE : ∀ n, E' n ↔ E n ∨ N n)
    (hV : ∀ n, V' n ↔ V n ∨ N n) (hle : ∀ n, N n → k ≤ n)
    (hk : N k ∨ r.squash = true ∧ r.squashedSeqNum < k) :
    Oldest E' V' (r.squashDueToMemOrder k) := by
  unfold ToCommit.squashDueToMemOrder
  split_ifs with htaken
  · have hN : N k := by
      rcases hk with hN | ⟨hs, hlt⟩
      · exact hN
      · simp [hs, not_le.mpr hlt] at htaken
    refine ⟨⟨fun _ => ⟨k, (hE k).mpr (.inr hN)⟩, fun _ => rfl⟩, fun _ => (hE k).mpr (.inr hN),
      fun _ n hn => ?_, fun _ => ⟨fun _ => (hV k).mpr (.inr hN), fun _ => rfl⟩⟩
    rcases (hE n).mp hn with hn | hn
    · have hs := h.squash_iff.mpr ⟨n, hn⟩
      have hold : k ≤ r.squashedSeqNum := by simpa [hs] using htaken
      exact hold.trans (h.smallest hs n hn)
    · exact hle n hn
  · have hs : r.squash = true ∧ r.squashedSeqNum < k := by simpa using htaken
    refine h.keep (fun n hn => ?_) (fun n hn => (hE n).mpr (.inl hn)) fun _ => ?_
    · exact ((hE n).mp hn).imp id fun hn => ⟨hs.1, hs.2.le.trans (hle n hn)⟩
    · rw [hV, or_iff_left]
      exact fun hn => (hle _ hn).not_gt hs.2

/-- Further redirects `N`, all of them violators, leave the oldest one as it is exactly if each of
them comes after another redirect or is one of the violators itself. -/
theorem Oldest.without (h : Oldest (fun n => E n ∨ N n) (fun n => V n ∨ N n) r)
    (hVE : ∀ n, V n → E n) : Oldest E V r ↔ ∀ p, N p → (∃ n < p, E n) ∨ V p := by
  constructor
  · intro h' p hp
    have hs := h.squash_iff.mpr ⟨p, .inr hp⟩
    rcases (h.smallest hs p (.inr hp)).lt_or_eq with hlt | rfl
    · exact .inl ⟨_, hlt, h'.from_redirect hs⟩
    · exact .inr ((h'.includes_iff hs).mp ((h.includes_iff hs).mpr (.inr hp)))
  · intro hN
    have hviol : r.squash = true → N r.squashedSeqNum → V r.squashedSeqNum := fun hs hp => by
      rcases hN _ hp with ⟨n, hlt, hn⟩ | hv
      · exact absurd hlt (h.smallest hs n (.inl hn)).not_gt
      · exact hv
    refine ⟨⟨fun hs => ?_, fun ⟨n, hn⟩ => h.squash_iff.mpr ⟨n, .inl hn⟩⟩, fun hs => ?_,
      fun hs n hn => h.smallest hs n (.inl hn), fun hs => ?_⟩
    · rcases h.from_redirect hs with hn | hp
      · exact ⟨_, hn⟩
      · exact ⟨_, hVE _ (hviol hs hp)⟩
    · exact (h.from_redirect hs).elim id fun hp => hVE _ (hviol hs hp)
    · rw [h.includes_iff hs]
      exact ⟨fun hv => hv.elim id (hviol hs), .inl⟩

end Oldest

/-! ## One instruction more -/

section Append

variable {pending : Option InstSeqNum} {before : List Inst} {inst : Inst}

theorem redirectsFrom_append {n : InstSeqNum} :
    RedirectsFrom (before ++ [inst]) n ↔
      RedirectsFrom before n ∨
        (inst.redirects = true ∧ inst.seqNum = n) ∨ inst.conflict = some n := by
  simp [RedirectsFrom, or_and_right, exists_or]

theorem violates_append {n : InstSeqNum} :
    Violates (before ++ [inst]) n ↔ Violates before n ∨ inst.conflict = some n := by
  simp [Violates, or_and_right, exists_or]

theorem RedirectsFrom.of_violates {n : InstSeqNum} (h : Violates before n) :
    RedirectsFrom before n := by
  obtain ⟨inst, hinst, hn⟩ := h
  exact ⟨inst, hinst, .inr hn⟩

theorem waits_append {p : InstSeqNum} :
    Waits pending (before ++ [inst]) p ↔
      Waits pending before p ∧ inst.redirects = true ∧
        ∀ inst' ∈ before, inst.seqNum < inst'.seqNum := by
  simp only [Waits, List.mem_append, List.mem_singleton, or_imp, forall_and, forall_eq,
    List.pairwise_append, List.pairwise_singleton, true_and]
  tauto

theorem takenUp_append {p : InstSeqNum} :
    TakenUp pending (before ++ [inst]) p ↔
      TakenUp pending before p ∨ Waits pending before p ∧ inst.isMemRef = true ∧
        inst.redirects = false ∧ ∀ inst' ∈ before, inst.seqNum < inst'.seqNum := by
  constructor
  · rintro ⟨b, i, a, heq, h⟩
    rcases List.eq_nil_or_concat a with rfl | ⟨a, x, rfl⟩
    · obtain ⟨rfl, hi⟩ := List.append_inj' heq rfl
      obtain rfl := List.head_eq_of_cons_eq hi
      exact .inr h
    · rw [List.concat_eq_append, ← List.cons_append, ← List.append_assoc] at heq
      exact .inl ⟨b, i, a, (List.append_inj' heq rfl).1, h⟩
  · rintro (⟨b, i, a, rfl, h⟩ | h)
    · exact ⟨b, i, a ++ [inst], by simp, h⟩
    · exact ⟨before, inst, [], rfl, h⟩

theorem leftBehind_append :
    LeftBehind pending (before ++ [inst]) ↔
      Leads pending before inst ∧ (inst.conflict ≠ none ∨ LeftBehind pending before) := by
  constructor
  · intro h
    generalize heq : before ++ [inst] = insts at h
    cases h with
    | pending hpending => simp at heq
    | raised hleads hviolates =>
      obtain ⟨rfl, hi⟩ := List.append_inj' heq rfl
      obtain rfl := List.head_eq_of_cons_eq hi
      exact ⟨hleads, .inl hviolates⟩
    | led hleads hleft =>
      obtain ⟨rfl, hi⟩ := List.append_inj' heq rfl
      obtain rfl := List.head_eq_of_cons_eq hi
      exact ⟨hleads, .inr hleft⟩
  · rintro ⟨hleads, hviolates | hleft⟩
    · exact .raised hleads hviolates
    · exact .led hleads hleft

/-- While all instructions have been mispredicted, one that is older than all redirects is older
than all of them. -/
theorem Waits.older {p : InstSeqNum} (h : Waits pending before p)
    (hlt : ∀ n, Redirected pending before n → inst.seqNum < n) :
    ∀ inst' ∈ before, inst.seqNum < inst'.seqNum :=
  fun inst' hi => hlt _ (.inl ⟨inst', hi, .inl ⟨h.2.1 inst' hi, rfl⟩⟩)

/-- A violation that has been taken up does not wait any more. -/
theorem Waits.not_takenUp {p q : InstSeqNum} (h : Waits pending before p) :
    ¬ TakenUp pending before q := by
  rintro ⟨b, i, a, rfl, -, -, hnot, -⟩
  have hi := h.2.1 i (by simp)
  simp [hnot] at hi

/-- An instruction that is older than those before it, while a violation waits, is older than all
redirects. -/
theorem Waits.redirected_gt {p n : InstSeqNum} (h : Waits pending before p)
    (horder : ∀ i ∈ before, InOrder i) (hlt : ∀ inst' ∈ before, inst.seqNum < inst'.seqNum)
    (hn : Redirected pending before n) : inst.seqNum < n := by
  rcases hn with ⟨i, hi, ⟨-, rfl⟩ | hconflict⟩ | htaken
  · exact hlt i hi
  · exact (hlt i hi).trans (conflict_gt (horder i hi) hconflict)
  · exact absurd htaken h.not_takenUp

end Append

/-! ## The run of a thread -/

/-- What holds of a thread after the instructions `done`. -/
structure Inv (pending : Option InstSeqNum) (done : List Inst) (t : Thread) : Prop where
  oldest : Oldest (Redirected pending done) (fun n => Violates done n ∨ TakenUp pending done n)
    t.toCommit
  fetch : t.toCommit.squash = true → t.fetchRedirect = true
  left_iff : t.memDepViolator ≠ none ↔ LeftBehind pending done
  later : ∀ q, t.memDepViolator = some q →
    (t.toCommit.squash = true ∧ t.toCommit.squashedSeqNum < q) ∨ Waits pending done q
  waits : ∀ p, Waits pending done p → ∃ q ≤ p, t.memDepViolator = some q

namespace Inv

variable {pending : Option InstSeqNum} {done : List Inst} {t : Thread} {inst : Inst}

theorem start (pending : Option InstSeqNum) (fetchRedirect : Bool) :
    Inv pending [] (Thread.start pending fetchRedirect) where
  oldest := by
    have hnone : ∀ n, ¬ Redirected pending [] n := by
      simp [Redirected, RedirectsFrom, TakenUp]
    exact ⟨⟨fun h => absurd h Bool.false_ne_true, fun ⟨n, hn⟩ => absurd hn (hnone n)⟩,
      fun h => absurd h Bool.false_ne_true, fun h => absurd h Bool.false_ne_true,
      fun h => absurd h Bool.false_ne_true⟩
  fetch h := absurd h Bool.false_ne_true
  left_iff := by
    refine ⟨.pending, fun h => ?_⟩
    generalize heq : ([] : List Inst) = insts at h
    cases h with
    | pending hpending => exact hpending
    | raised hleads hviolates => simp at heq
    | led hleads hleft => simp at heq
  later q hq := .inr ⟨hq, by simp, List.Pairwise.nil⟩
  waits p hp := ⟨p, le_rfl, hp.1⟩

/-- The stage looks at an instruction that is older than everything from which the thread has been
redirected. -/
theorem considers_iff (h : Inv pending done t) :
    t.considers inst = true ↔ ∀ n, Redirected pending done n → inst.seqNum < n := by
  unfold Thread.considers
  cases hs : t.toCommit.squash with
  | false =>
    have hnone : ∀ n, ¬ Redirected pending done n := fun n hn => by
      simp [h.oldest.squash_iff.mpr ⟨n, hn⟩] at hs
    simp [hnone]
  | true =>
    simp only [h.fetch hs, Bool.not_true, Bool.false_or, decide_eq_true_eq]
    exact ⟨fun hlt n hn => lt_of_lt_of_le hlt (h.oldest.smallest hs n hn),
      fun hlt => hlt _ (h.oldest.from_redirect hs)⟩

/-- The violator after the execution of one more instruction. -/
theorem merge_ne_none_iff (h : Inv pending done t) :
    t.memDepViolator.merge min inst.conflict ≠ none ↔
      inst.conflict ≠ none ∨ LeftBehind pending done := by
  rw [← h.left_iff, ne_eq, Option.merge_eq_none_iff]
  tauto

theorem redirected_append {n : InstSeqNum} :
    Redirected pending (done ++ [inst]) n ↔
      Redirected pending done n ∨ ((inst.redirects = true ∧ inst.seqNum = n) ∨
        inst.conflict = some n) ∨ (Waits pending done n ∧ inst.isMemRef = true ∧
        inst.redirects = false ∧ ∀ inst' ∈ done, inst.seqNum < inst'.seqNum) := by
  simp only [Redirected, redirectsFrom_append, takenUp_append]
  tauto

/-- An instruction that is mispredicted and older than all redirects. -/
theorem lead (h : Inv pending done t) (horder : InOrder inst) (hleads : Leads pending done inst) :
    Inv pending (done ++ [inst])
      { t with
        toCommit := t.toCommit.squashDueToBranch inst.seqNum
        fetchRedirect := true
        memDepViolator := t.memDepViolator.merge min inst.conflict } := by
  obtain ⟨hredirects, hlt⟩ := hleads
  have hnot : ¬ inst.conflict = some inst.seqNum := fun hc => (conflict_gt horder hc).false
  obtain ⟨hbranch, hsquash, hnum⟩ : Oldest (Redirected pending (done ++ [inst]))
      (fun n => Violates (done ++ [inst]) n ∨ TakenUp pending (done ++ [inst]) n)
      (t.toCommit.squashDueToBranch inst.seqNum) ∧
      (t.toCommit.squashDueToBranch inst.seqNum).squash = true ∧
      (t.toCommit.squashDueToBranch inst.seqNum).squashedSeqNum = inst.seqNum :=
    h.oldest.branch hlt (fun n hn => hn.imp RedirectsFrom.of_violates id) (fun n hn => by
      rcases redirected_append.mp hn with hn | (⟨-, rfl⟩ | hc) | ⟨-, -, hfalse, -⟩
      · exact .inr (hlt n hn)
      · exact .inl rfl
      · exact .inr (conflict_gt horder hc)
      · simp [hredirects] at hfalse)
    (redirected_append.mpr (.inr (.inl (.inl ⟨hredirects, rfl⟩))))
    (by simp [violates_append, takenUp_append, hnot, hredirects])
  refine ⟨hbranch, fun _ => rfl, ?_, fun q hq => ?_, fun p hp => ?_⟩
  · rw [h.merge_ne_none_iff, leftBehind_append]
    exact ⟨fun hor => ⟨⟨hredirects, hlt⟩, hor⟩, And.right⟩
  · -- a violation raised now is younger than the instruction; an earlier one stays what it was
    have hcases : t.memDepViolator = some q ∨ inst.conflict = some q := by
      rcases Option.merge_eq_or_eq min_choice t.memDepViolator inst.conflict with he | he
      · exact .inl (he.symm.trans hq)
      · exact .inr (he.symm.trans hq)
    rcases hcases with hq | hc
    · rcases h.later q hq with ⟨hs, hq⟩ | hwaits
      · refine .inl ⟨hsquash, ?_⟩
        rw [hnum]
        exact (hlt _ (h.oldest.from_redirect hs)).trans hq
      · exact .inr (waits_append.mpr ⟨hwaits, hredirects, hwaits.older hlt⟩)
    · refine .inl ⟨hsquash, ?_⟩
      rw [hnum]
      exact conflict_gt horder hc
  · obtain ⟨q, hle, hq⟩ := h.waits p (waits_append.mp hp).1
    cases hc : inst.conflict with
    | none => exact ⟨q, hle, by simp [hq]⟩
    | some c => exact ⟨min q c, (min_le_left q c).trans hle, by simp [hq]⟩

/-- After an instruction that does not lead, nothing is left behind. -/
theorem of_not_leads (hnot : ¬ Leads pending done inst) {t' : Thread}
    (holdest : Oldest (Redirected pending (done ++ [inst]))
      (fun n => Violates (done ++ [inst]) n ∨ TakenUp pending (done ++ [inst]) n) t'.toCommit)
    (hfetch : t'.toCommit.squash = true → t'.fetchRedirect = true)
    (hnone : t'.memDepViolator = none) (hwaits : ∀ p, ¬ Waits pending (done ++ [inst]) p) :
    Inv pending (done ++ [inst]) t' where
  oldest := holdest
  fetch := hfetch
  left_iff := by
    rw [leftBehind_append]
    exact ⟨fun hne => absurd hnone hne, fun hl => absurd hl.1 hnot⟩
  later q hq := by simp [hnone] at hq
  waits p hp := absurd hp (hwaits p)

/-- A memory instruction that is not mispredicted, and older than all redirects, has the oldest
violation handled. -/
theorem take (h : Inv pending done t) (hmem : inst.isMemRef = true)
    (hredirects : inst.redirects = false) (hlt : ∀ n, Redirected pending done n → inst.seqNum < n)
    {w : InstSeqNum} (hw : t.memDepViolator.merge min inst.conflict = some w) :
    Inv pending (done ++ [inst])
      { toCommit := t.toCommit.squashDueToMemOrder w, memDepViolator := none,
        fetchRedirect := true } := by
  have htaken : ∀ n, (Waits pending done n ∧ inst.isMemRef = true ∧ inst.redirects = false ∧
      ∀ inst' ∈ done, inst.seqNum < inst'.seqNum) ↔ Waits pending done n := fun n =>
    ⟨And.left, fun hwaits => ⟨hwaits, hmem, hredirects, hwaits.older hlt⟩⟩
  refine of_not_leads (fun hl => by simp [hl.1] at hredirects) ?_ (fun _ => rfl) rfl
    fun p hp => by simp [(waits_append.mp hp).2.1] at hredirects
  refine h.oldest.memOrder (N := fun n => inst.conflict = some n ∨ Waits pending done n)
    (fun n => ?_) (fun n => ?_) (fun n hn => ?_) ?_
  · rw [redirected_append, htaken]
    simp [hredirects]
  · rw [violates_append, takenUp_append, htaken]
    tauto
  · rcases hn with hc | hwaits
    · cases hv : t.memDepViolator with
      | none => simp_all
      | some q =>
        rw [hv, hc, Option.merge_some_some, Option.some_inj] at hw
        exact hw ▸ min_le_right q n
    · obtain ⟨q, hle, hq⟩ := h.waits n hwaits
      cases hc : inst.conflict with
      | none => simp_all
      | some c =>
        rw [hq, hc, Option.merge_some_some, Option.some_inj] at hw
        exact (hw ▸ min_le_left q c).trans hle
  · rcases Option.merge_eq_or_eq min_choice t.memDepViolator inst.conflict with he | he
    · exact (h.later w (he ▸ hw)).symm.imp .inr id
    · exact .inl (.inl (he ▸ hw))

/-- An instruction after which no violation is handled: there is none, or the thread has been
redirected from an older instruction. -/
theorem drop (h : Inv pending done t) (horder : InOrder inst)
    (horders : ∀ i ∈ done, InOrder i) (hnot : ¬ Leads pending done inst)
    (hidle : t.memDepViolator.merge min inst.conflict = none ∨
      ∃ n, Redirected pending done n ∧ n ≤ inst.seqNum) :
    Inv pending (done ++ [inst]) { t with memDepViolator := none } := by
  have hnotTaken : ∀ n, Waits pending done n →
      ¬ ∀ inst' ∈ done, inst.seqNum < inst'.seqNum := by
    intro n hwaits holder
    rcases hidle with hnone | ⟨m, hm, hle⟩
    · obtain ⟨q, -, hq⟩ := h.waits n hwaits
      simp [hq, Option.merge_eq_none_iff] at hnone
    · exact (hwaits.redirected_gt horders holder hm).not_ge hle
  have hsent : (inst.redirects = false ∧ inst.conflict = none) ∨
      t.toCommit.squash = true ∧ t.toCommit.squashedSeqNum ≤ inst.seqNum := by
    have hold : (∃ n, Redirected pending done n ∧ n ≤ inst.seqNum) →
        t.toCommit.squash = true ∧ t.toCommit.squashedSeqNum ≤ inst.seqNum := by
      rintro ⟨n, hn, hle⟩
      have hs := h.oldest.squash_iff.mpr ⟨n, hn⟩
      exact ⟨hs, (h.oldest.smallest hs n hn).trans hle⟩
    rcases hidle with hnone | hex
    · cases hredirects : inst.redirects with
      | false => exact .inl ⟨rfl, (Option.merge_eq_none_iff.mp hnone).2⟩
      | true =>
        refine .inr (hold (not_forall_not.mp fun hall => hnot ⟨hredirects, fun n hn => ?_⟩))
        exact not_le.mp fun hle => hall n ⟨hn, hle⟩
    · exact .inr (hold hex)
  refine of_not_leads hnot ?_ h.fetch rfl fun p hp => ?_
  · refine h.oldest.keep (fun n hn => ?_) (fun n hn => redirected_append.mpr (.inl hn)) fun hs => ?_
    · rcases redirected_append.mp hn with hn | hown | ⟨hwaits, -, -, holder⟩
      · exact .inl hn
      · rcases hsent with ⟨hredirects, hconflict⟩ | ⟨hs, hle⟩
        · simp [hredirects, hconflict] at hown
        · refine .inr ⟨hs, ?_⟩
          rcases hown with ⟨-, rfl⟩ | hc
          · exact hle
          · exact hle.trans (conflict_gt horder hc).le
      · exact absurd holder (hnotTaken n hwaits)
    · rw [violates_append, takenUp_append]
      have hnoConflict : ¬ inst.conflict = some t.toCommit.squashedSeqNum := fun hc => by
        rcases hsent with ⟨-, hnone⟩ | ⟨-, hle⟩
        · simp [hc] at hnone
        · exact (conflict_gt horder hc).not_ge hle
      have hnoWait : ¬ (Waits pending done t.toCommit.squashedSeqNum ∧ inst.isMemRef = true ∧
          inst.redirects = false ∧ ∀ inst' ∈ done, inst.seqNum < inst'.seqNum) :=
        fun hw => hnotTaken _ hw.1 hw.2.2.2
      rw [or_iff_left hnoConflict, or_iff_left hnoWait]
  · obtain ⟨hwaits, -, holder⟩ := waits_append.mp hp
    exact hnotTaken p hwaits holder

/-- **One instruction**: the assertion fails if a non-memory instruction comes upon a violation, and
the invariant is kept otherwise. -/
theorem step (h : Inv pending done t) (horder : InOrder inst) (horders : ∀ i ∈ done, InOrder i)
    (hactive : inst.active = true) :
    (ComesUpon pending done inst → t.executeInst inst = .error .notMemRef) ∧
      (¬ ComesUpon pending done inst →
        ∃ t', t.executeInst inst = .ok t' ∧ Inv pending (done ++ [inst]) t') := by
  have hexecute := memDepViolator_execute t horder
  have hupon : ∀ w, t.memDepViolator.merge min inst.conflict = some w →
      inst.isMemRef = false → ¬ Leads pending done inst → ComesUpon pending done inst := by
    intro w hw hmem hnot
    have hleft := h.merge_ne_none_iff.mp (hw ▸ Option.some_ne_none w)
    exact ⟨hmem, hnot, hleft.resolve_left fun hne => hne (conflict_eq_none hmem)⟩
  have hconsiders : (t.execute inst).considers inst = t.considers inst := by
    rw [hexecute]
    rfl
  rw [Thread.executeInst, if_pos hactive, Thread.redirect, hconsiders, hexecute]
  cases hc : t.considers inst with
  | true =>
    have hlt := h.considers_iff.mp hc
    cases hredirects : inst.redirects with
    | true =>
      have hleads : Leads pending done inst := ⟨hredirects, hlt⟩
      exact ⟨fun hcomes => absurd hleads hcomes.2.1, fun _ => ⟨_, rfl, h.lead horder hleads⟩⟩
    | false =>
      have hnot : ¬ Leads pending done inst := fun hl => by simp [hl.1] at hredirects
      cases hw : t.memDepViolator.merge min inst.conflict with
      | none =>
        refine ⟨fun hcomes => ?_, fun _ => ⟨_, rfl, h.drop horder horders hnot (.inl hw)⟩⟩
        exact absurd hw (h.merge_ne_none_iff.mpr (.inr hcomes.2.2))
      | some w =>
        cases hmem : inst.isMemRef with
        | false =>
          refine ⟨fun _ => ?_, fun hcomes => absurd (hupon w hw hmem hnot) hcomes⟩
          simp [Thread.handleViolation, hmem, require]
        | true =>
          refine ⟨fun hcomes => by simp [hcomes.1] at hmem,
            fun _ => ⟨_, ?_, h.take hmem hredirects hlt hw⟩⟩
          simp [Thread.handleViolation, hmem, require]
  | false =>
    have hold : ∃ n, Redirected pending done n ∧ n ≤ inst.seqNum := by
      have hnot := mt h.considers_iff.mpr (ne_true_of_eq_false hc)
      simpa using hnot
    have hnot : ¬ Leads pending done inst := fun hl =>
      ne_true_of_eq_false hc (h.considers_iff.mpr hl.2)
    cases hw : t.memDepViolator.merge min inst.conflict with
    | none =>
      refine ⟨fun hcomes => ?_, fun _ => ⟨_, rfl, ?_⟩⟩
      · exact absurd hw (h.merge_ne_none_iff.mpr (.inr hcomes.2.2))
      · exact h.drop horder horders hnot (.inl hw)
    | some w =>
      cases hmem : inst.isMemRef with
      | false =>
        refine ⟨fun _ => ?_, fun hcomes => absurd (hupon w hw hmem hnot) hcomes⟩
        simp [Thread.dropViolation, hmem, require]
      | true =>
        refine ⟨fun hcomes => by simp [hcomes.1] at hmem,
          fun _ => ⟨_, ?_, h.drop horder horders hnot (.inr hold)⟩⟩
        simp [Thread.dropViolation, hmem, require]

end Inv

/-- No instruction of a longer list comes upon a violation if none of the shorter list does, and the
last one does not. -/
theorem met_append {pending : Option InstSeqNum} {done : List Inst} {inst : Inst} :
    (∀ before i after, done ++ [inst] = before ++ i :: after → ¬ ComesUpon pending before i) ↔
      (∀ before i after, done = before ++ i :: after → ¬ ComesUpon pending before i) ∧
        ¬ ComesUpon pending done inst := by
  constructor
  · intro h
    exact ⟨fun b i a heq => h b i (a ++ [inst]) (by simp [heq]), h done inst [] rfl⟩
  · rintro ⟨hdone, hinst⟩ b i a heq
    rcases List.eq_nil_or_concat a with rfl | ⟨a, x, rfl⟩
    · obtain ⟨rfl, hi⟩ := List.append_inj' heq rfl
      obtain rfl := List.head_eq_of_cons_eq hi
      exact hinst
    · rw [List.concat_eq_append, ← List.cons_append, ← List.append_assoc] at heq
      exact hdone b i a (List.append_inj' heq rfl).1

/-- **A whole thread**: its instructions are executed, and keep the invariant, exactly if none comes
upon a violation. -/
theorem run_spec (pending : Option InstSeqNum) (fetchRedirect : Bool) {insts : List Inst}
    (horders : ∀ i ∈ insts, InOrder i) (hactive : ∀ i ∈ insts, i.active = true) :
    ((∀ before i after, insts = before ++ i :: after → ¬ ComesUpon pending before i) →
        ∃ t, insts.foldlM Thread.executeInst (Thread.start pending fetchRedirect) = .ok t ∧
          Inv pending insts t) ∧
      ((∃ t, insts.foldlM Thread.executeInst (Thread.start pending fetchRedirect) = .ok t) →
        ∀ before i after, insts = before ++ i :: after → ¬ ComesUpon pending before i) := by
  induction insts using List.reverseRecOn with
  | nil => exact ⟨fun _ => ⟨_, rfl, Inv.start pending fetchRedirect⟩, fun _ b i a h => by simp at h⟩
  | append_singleton done inst ih =>
    have horders' : ∀ i ∈ done, InOrder i := fun i hi => horders i (List.mem_append_left _ hi)
    have hlast : inst ∈ done ++ [inst] := by simp
    obtain ⟨ihOk, ihMet⟩ := ih horders' fun i hi => hactive i (List.mem_append_left _ hi)
    simp only [met_append, List.foldlM_append, List.foldlM_cons, List.foldlM_nil, bind_pure]
    constructor
    · rintro ⟨hmet, hnot⟩
      obtain ⟨t, ht, hinv⟩ := ihOk hmet
      obtain ⟨t', ht', hinv'⟩ :=
        (hinv.step (horders inst hlast) horders' (hactive inst hlast)).2 hnot
      exact ⟨t', bind_eq_ok.mpr ⟨t, ht, ht'⟩, hinv'⟩
    · rintro ⟨t', h⟩
      obtain ⟨t, ht, ht'⟩ := bind_eq_ok.mp h
      have hmet := ihMet ⟨t, ht⟩
      refine ⟨hmet, fun hcomes => ?_⟩
      obtain ⟨u, hu, hinv⟩ := ihOk hmet
      obtain rfl := Except.ok.inj (ht.symm.trans hu)
      have herror := (hinv.step (horders inst hlast) horders' (hactive inst hlast)).1 hcomes
      rw [herror] at ht'
      cases ht'

/-- **The redirect of a thread** is the oldest one exactly if its instructions are harmless. -/
theorem run_oldest_iff (pending : Option InstSeqNum) (fetchRedirect : Bool) {insts : List Inst}
    (horders : ∀ i ∈ insts, InOrder i) (hactive : ∀ i ∈ insts, i.active = true) :
    (∃ t, insts.foldlM Thread.executeInst (Thread.start pending fetchRedirect) = .ok t ∧
        Oldest (RedirectsFrom insts) (Violates insts) t.toCommit) ↔ Harmless pending insts := by
  obtain ⟨hok, hmet⟩ := run_spec pending fetchRedirect horders hactive
  constructor
  · rintro ⟨t, ht, hold⟩
    have hm := hmet ⟨t, ht⟩
    obtain ⟨u, hu, hinv⟩ := hok hm
    obtain rfl := Except.ok.inj (ht.symm.trans hu)
    exact ⟨hm, (hinv.oldest.without fun n => .of_violates).mp hold⟩
  · rintro ⟨hm, htaken⟩
    obtain ⟨t, ht, hinv⟩ := hok hm
    exact ⟨t, ht, (hinv.oldest.without fun n => .of_violates).mpr htaken⟩

/-! ## All threads -/

/-- **The threads do not meet**: the loop runs exactly if it does for the instructions of each
thread alone, and each thread ends as it does alone. -/
theorem executeInsts_eq_ok_iff {s s' : ℕ → Thread} {insts : List Inst} :
    executeInsts s insts = .ok s' ↔
      ∀ tid, (ofThread tid insts).foldlM Thread.executeInst (s tid) = .ok (s' tid) := by
  induction insts generalizing s with
  | nil =>
    refine ⟨fun h tid => ?_, fun h => ?_⟩
    · exact congrArg Except.ok (congrFun (Except.ok.inj h) tid)
    · exact congrArg Except.ok (funext fun tid => Except.ok.inj (h tid))
  | cons inst insts ih =>
    have hfirst : executeInsts s (inst :: insts) =
        (s inst.threadNumber).executeInst inst >>= fun t =>
          executeInsts (Function.update s inst.threadNumber t) insts := by
      simp only [executeInsts, List.foldlM_cons, bind_assoc, pure_bind]
    rw [hfirst, bind_eq_ok]
    simp only [ih]
    have hother : ∀ tid ≠ inst.threadNumber, ofThread tid (inst :: insts) = ofThread tid insts :=
      fun tid hne => List.filter_cons_of_neg (by simp [hne.symm])
    cases hactive : inst.active with
    | false =>
      have hsame : ∀ tid, ofThread tid (inst :: insts) = ofThread tid insts :=
        fun tid => List.filter_cons_of_neg (by simp [hactive])
      have hskip : (s inst.threadNumber).executeInst inst = .ok (s inst.threadNumber) := by
        simp [Thread.executeInst, hactive]
      simp [hsame, hskip]
    | true =>
      have hown : ofThread inst.threadNumber (inst :: insts)
          = inst :: ofThread inst.threadNumber insts :=
        List.filter_cons_of_pos (by simp [hactive])
      constructor
      · rintro ⟨t, ht, hrest⟩ tid
        rcases eq_or_ne tid inst.threadNumber with rfl | hne
        · rw [hown, List.foldlM_cons, bind_eq_ok]
          exact ⟨t, ht, by simpa using hrest inst.threadNumber⟩
        · rw [hother tid hne]
          simpa [hne] using hrest tid
      · intro h
        have hmine := h inst.threadNumber
        rw [hown, List.foldlM_cons, bind_eq_ok] at hmine
        obtain ⟨t, ht, hrest⟩ := hmine
        refine ⟨t, ht, fun tid => ?_⟩
        rcases eq_or_ne tid inst.threadNumber with rfl | hne
        · simpa using hrest
        · simpa [hne, hother tid hne] using h tid

/-- **The oldest redirect is sent.**  From the start of a cycle, with any violations pending, the
instructions in any order and from any threads are all executed without a failed assertion, and tell
commit about the oldest redirect of each thread, exactly if those of each thread are harmless. -/
theorem oldest_redirect_iff (pending : ℕ → Option InstSeqNum) (fetchRedirect : ℕ → Bool)
    (activeThreads : List ℕ) {insts : List Inst} (horders : ∀ inst ∈ insts, InOrder inst) :
    (∃ s, executeInsts (cycleStart pending fetchRedirect activeThreads) insts = .ok s ∧
        ∀ tid, Oldest (RedirectsFrom (ofThread tid insts)) (Violates (ofThread tid insts))
          (s tid).toCommit) ↔
      ∀ tid, Harmless (pending tid) (ofThread tid insts) := by
  have hthread : ∀ tid fetch, (∃ t, (ofThread tid insts).foldlM Thread.executeInst
      (Thread.start (pending tid) fetch) = .ok t ∧
        Oldest (RedirectsFrom (ofThread tid insts)) (Violates (ofThread tid insts)) t.toCommit) ↔
      Harmless (pending tid) (ofThread tid insts) := fun tid fetch =>
    run_oldest_iff (pending tid) fetch (fun i hi => horders i (List.mem_of_mem_filter hi))
      fun i hi => (Bool.and_eq_true_iff.mp (List.mem_filter.mp hi).2).1
  simp only [executeInsts_eq_ok_iff, ← forall_and]
  constructor
  · rintro ⟨s, hs⟩ tid
    exact (hthread tid _).mp ⟨s tid, hs tid⟩
  · intro h
    exact Classical.skolem.mp fun tid => (hthread tid _).mpr (h tid)

/-- A store that finds a violation, and an older load that is mispredicted. -/
theorem oldest_redirect_two :
    ∃ s, executeInsts (cycleStart (fun _ => none) (fun _ => false) [0])
        [{ seqNum := 5, threadNumber := 0, isMemRef := true, loads := [{ seqNum := 7 }] },
          { seqNum := 3, threadNumber := 0, isMemRef := true, isLoad := true,
            mispredicted := true }] = .ok s ∧
      ∀ tid, Oldest
        (RedirectsFrom (ofThread tid
          [{ seqNum := 5, threadNumber := 0, isMemRef := true, loads := [{ seqNum := 7 }] },
            { seqNum := 3, threadNumber := 0, isMemRef := true, isLoad := true,
              mispredicted := true }]))
        (Violates (ofThread tid
          [{ seqNum := 5, threadNumber := 0, isMemRef := true, loads := [{ seqNum := 7 }] },
            { seqNum := 3, threadNumber := 0, isMemRef := true, isLoad := true,
              mispredicted := true }]))
        (s tid).toCommit := by
  refine (oldest_redirect_iff (fun _ => none) (fun _ => false) [0] ?_).mpr fun tid => ?_
  · simp [InOrder]
  · refine ⟨fun before inst after heq hcomes => ?_, fun p hp => ?_⟩
    · have hmem : inst ∈ ofThread tid _ := heq ▸ List.mem_append_right before List.mem_cons_self
      have hcases := List.mem_of_mem_filter hmem
      have hnot := hcomes.1
      simp only [List.mem_cons, List.not_mem_nil, or_false] at hcases
      rcases hcases with rfl | rfl
      · cases hnot
      · cases hnot
    · obtain ⟨before, inst, after, -, hwaits, -⟩ := hp
      cases hwaits.1

/-- **An assertion fails**: a store that is mispredicted finds a violation, which stays behind, and
the next instruction of the thread is no memory reference. -/
theorem violation_left_behind :
    ¬ ∃ s, executeInsts (cycleStart (fun _ => none) (fun _ => false) [0])
        [{ seqNum := 5, threadNumber := 0, isMemRef := true, mispredicted := true,
           loads := [{ seqNum := 7 }] },
          { seqNum := 6, threadNumber := 0 }] = .ok s := by
  rintro ⟨s, hs⟩
  have herror : executeInsts (cycleStart (fun _ => none) (fun _ => false) [0])
      [{ seqNum := 5, threadNumber := 0, isMemRef := true, mispredicted := true,
         loads := [{ seqNum := 7 }] },
        { seqNum := 6, threadNumber := 0 }] = .error .notMemRef := rfl
  rw [herror] at hs
  cases hs

end Gem5.Iew
