/-
# The oldest thread that can commit

Embedding of `Commit::oldestReady` (`cpu/o3/commit.cc`), the commit policy that picks the thread
whose head of the reorder buffer is the oldest.

Sequence numbers have 64 bits, but the loop keeps the number of its pick in an `unsigned`.  Only the
pick of the first thread can lose bits, as a later pick is below a 32-bit number.  The policy picks
the oldest thread exactly when that loss hides no thread that is older than the first one
(`oldestReady_iff`).
-/
import Gem5.RobPartition

namespace Gem5.Commit

open Runs Rob

/-- `Commit::ThreadStatus` -/
inductive ThreadStatus where
  | Running
  | Idle
  | ROBSquashing
  | TrapPending
  | FetchTrapPending
  | SquashAfterPending
  deriving DecidableEq, Repr

variable {n : ℕ}

/-! ## The policy -/

/-- `ROB::isHeadReady` -/
def isHeadReady (rob : ROB n) (tid : Fin n) : Except Fault Bool := do
  if rob.threadEntries tid ≠ 0 then
    let head ← orFail .threadEmpty (rob.instList tid).head?
    .ok head.canCommit
  else .ok false

/-- `ROB::readHeadInst`; the instruction that it returns of an empty list is a null pointer. -/
def readHeadInst (rob : ROB n) (tid : Fin n) : Except Fault RobInst :=
  if rob.threadEntries tid ≠ 0 then orFail .threadEmpty (rob.instList tid).head?
  else .error .threadEmpty

/-- The thread states in which a thread may commit. -/
def mayCommit : ThreadStatus → Bool
  | .Running | .Idle | .FetchTrapPending => true
  | .ROBSquashing | .TrapPending | .SquashAfterPending => false

/-- `oldest` and `oldest_seq_num`, the latter an `unsigned`; `none` while `first` is set. -/
abbrev Pick (n : ℕ) := Option (Fin n × ℕ)

/-- A thread is picked first, or when its head is below `oldest_seq_num`. -/
def consider (pick : Pick n) (tid : Fin n) (seqNum : InstSeqNum) : Pick n :=
  match pick with
  | none => some (tid, seqNum % 2 ^ 32)
  | some (oldest, oldest_seq_num) =>
      if seqNum < oldest_seq_num then some (tid, seqNum % 2 ^ 32)
      else some (oldest, oldest_seq_num)

/-- One round of the loop of `oldestReady`. -/
def visit (rob : ROB n) (commitStatus : Fin n → ThreadStatus) (pick : Pick n) (tid : Fin n) :
    Except Fault (Pick n) := do
  if !isEmpty rob tid && mayCommit (commitStatus tid) then
    if ← isHeadReady rob tid then
      let head_inst ← readHeadInst rob tid
      .ok (consider pick tid head_inst.seqNum)
    else .ok pick
  else .ok pick

/-- `Commit::oldestReady`; `none` is `InvalidThreadID`. -/
def oldestReady (rob : ROB n) (commitStatus : Fin n → ThreadStatus) :
    Except Fault (Option (Fin n)) := do
  let pick ← rob.activeThreads.foldlM (visit rob commitStatus) none
  .ok (pick.map Prod.fst)

/-! ## The purpose -/

/-- The number of a thread's head, for a thread that can commit it. -/
def headReady (rob : ROB n) (commitStatus : Fin n → ThreadStatus) (tid : Fin n) :
    Option InstSeqNum :=
  match (rob.instList tid).head? with
  | none => none
  | some head =>
      if mayCommit (commitStatus tid) && head.canCommit then some head.seqNum else none

/-- The active threads that can commit, with the numbers of their heads. -/
def candidates (rob : ROB n) (commitStatus : Fin n → ThreadStatus) : List (Fin n × InstSeqNum) :=
  rob.activeThreads.filterMap fun tid =>
    (headReady rob commitStatus tid).map fun seqNum => (tid, seqNum)

/-- **The oldest thread is picked**, or none when no thread can commit. -/
def PicksOldest (rob : ROB n) (commitStatus : Fin n → ThreadStatus) : Option (Fin n) → Prop
  | none => candidates rob commitStatus = []
  | some tid => ∃ seqNum, (tid, seqNum) ∈ candidates rob commitStatus ∧
      ∀ c ∈ candidates rob commitStatus, seqNum ≤ c.2

/-- The number of the first candidate is not cut below an older one: if some candidate is older than
the first, some candidate is below the low 32 bits of the first's number. -/
def FirstFits (rob : ROB n) (commitStatus : Fin n → ThreadStatus) : Prop :=
  ∀ first ∈ (candidates rob commitStatus).head?,
    (∃ c ∈ candidates rob commitStatus, c.2 < first.2) →
      ∃ c ∈ candidates rob commitStatus, c.2 < first.2 % 2 ^ 32

/-! ## The loop -/

/-- **One round** considers the thread if it can commit. -/
theorem visit_eq {rob : ROB n} (h : Consistent rob) (commitStatus : Fin n → ThreadStatus)
    (pick : Pick n) (tid : Fin n) :
    visit rob commitStatus pick tid = .ok (
      match headReady rob commitStatus tid with
      | none => pick
      | some seqNum => consider pick tid seqNum) := by
  rw [visit, headReady, isEmpty, isHeadReady, readHeadInst, h.length tid]
  cases hlist : rob.instList tid with
  | nil => rfl
  | cons head rest =>
    have hne : (head :: rest).length ≠ 0 := Nat.succ_ne_zero _
    rw [if_pos hne, if_pos hne, decide_eq_false hne, Bool.not_false, Bool.true_and,
      List.head?_cons]
    cases mayCommit (commitStatus tid) with
    | false => rfl
    | true => cases hready : head.canCommit <;> simp [orFail, hready, bind, Except.bind]

/-- The loop is a pass over the candidates. -/
theorem foldlM_visit {rob : ROB n} (h : Consistent rob) (commitStatus : Fin n → ThreadStatus)
    (threads : List (Fin n)) (pick : Pick n) :
    threads.foldlM (visit rob commitStatus) pick =
      .ok ((threads.filterMap fun tid =>
        (headReady rob commitStatus tid).map fun seqNum => (tid, seqNum)).foldl
          (fun pick c => consider pick c.1 c.2) pick) := by
  induction threads generalizing pick with
  | nil => rfl
  | cons tid threads ih =>
    rw [List.foldlM_cons, visit_eq h]
    cases hready : headReady rob commitStatus tid with
    | none =>
      rw [List.filterMap_cons_none (by rw [hready]; rfl)]
      exact ih pick
    | some seqNum =>
      rw [List.filterMap_cons_some (by rw [hready]; rfl), List.foldl_cons]
      exact ih (consider pick tid seqNum)

/-- **A pick below `2 ^ 32`** is replaced by the oldest candidate below it, whole. -/
theorem foldl_consider (l : List (Fin n × InstSeqNum)) (oldest : Fin n) {k : ℕ}
    (hk : k < 2 ^ 32) :
    ∃ tid seqNum, l.foldl (fun pick c => consider pick c.1 c.2) (some (oldest, k)) =
        some (tid, seqNum) ∧
      (∀ c ∈ l, seqNum ≤ c.2) ∧
      ((tid, seqNum) = (oldest, k) ∨ (tid, seqNum) ∈ l ∧ seqNum < k) := by
  induction l generalizing oldest k with
  | nil => exact ⟨oldest, k, rfl, fun _ h => absurd h List.not_mem_nil, .inl rfl⟩
  | cons c l ih =>
    rw [List.foldl_cons, consider]
    by_cases hlt : c.2 < k
    · have hfit : c.2 < 2 ^ 32 := hlt.trans hk
      rw [if_pos hlt, Nat.mod_eq_of_lt hfit]
      obtain ⟨tid, seqNum, hfold, hmin, hpick⟩ := ih c.1 hfit
      refine ⟨tid, seqNum, hfold, ?_, .inr ?_⟩
      · intro d hd
        rcases List.mem_cons.mp hd with rfl | hd
        · rcases hpick with heq | ⟨-, hlt⟩
          · exact (congrArg Prod.snd heq).le
          · exact hlt.le
        · exact hmin d hd
      · rcases hpick with heq | ⟨hmem, hlt'⟩
        · obtain ⟨rfl, rfl⟩ := Prod.mk.inj heq
          exact ⟨List.mem_cons_self, hlt⟩
        · exact ⟨List.mem_cons_of_mem c hmem, hlt'.trans hlt⟩
    · rw [if_neg hlt]
      obtain ⟨tid, seqNum, hfold, hmin, hpick⟩ := ih oldest hk
      refine ⟨tid, seqNum, hfold, ?_, ?_⟩
      · intro d hd
        rcases List.mem_cons.mp hd with rfl | hd
        · have hle : seqNum ≤ k := by
            rcases hpick with heq | ⟨-, hlt⟩
            · exact (congrArg Prod.snd heq).le
            · exact hlt.le
          exact hle.trans (Nat.not_lt.mp hlt)
        · exact hmin d hd
      · rcases hpick with heq | ⟨hmem, hlt'⟩
        · exact .inl heq
        · exact .inr ⟨List.mem_cons_of_mem c hmem, hlt'⟩

theorem headReady_of_mem {rob : ROB n} {commitStatus : Fin n → ThreadStatus}
    {c : Fin n × InstSeqNum} (h : c ∈ candidates rob commitStatus) :
    headReady rob commitStatus c.1 = some c.2 := by
  obtain ⟨tid, -, heq⟩ := List.mem_filterMap.mp h
  obtain ⟨seqNum, hready, rfl⟩ := Option.map_eq_some_iff.mp heq
  exact hready

/-- **The oldest thread is picked** exactly when the number of the first candidate is not cut below
that of an older one, in every state that the reorder buffer can reach. -/
theorem oldestReady_iff (p : Params) {rob : ROB n}
    (h : Reached (fun _ _ => True) (step p) (init p n) rob)
    (commitStatus : Fin n → ThreadStatus) :
    ∃ tid, oldestReady rob commitStatus = .ok tid ∧
      (PicksOldest rob commitStatus tid ↔ FirstFits rob commitStatus) := by
  have hinv : Inv p rob := h.invariant (fun _ _ _ hs _ => inv_step hs) (inv_init p n)
  have hloop := foldlM_visit hinv.consistent commitStatus rob.activeThreads none
  rw [oldestReady, hloop]
  refine ⟨_, rfl, ?_⟩
  have hdef : (rob.activeThreads.filterMap fun tid =>
    (headReady rob commitStatus tid).map fun seqNum => (tid, seqNum)) =
      candidates rob commitStatus := rfl
  rw [hdef]
  cases hc : candidates rob commitStatus with
  | nil =>
      have hpicks : PicksOldest rob commitStatus none := hc
      refine ⟨fun _ => ?_, fun _ => hpicks⟩
      intro first hfirst
      rw [hc] at hfirst
      cases hfirst
  | cons first rest =>
      have hmod : first.2 % 2 ^ 32 ≤ first.2 := Nat.mod_le _ _
      obtain ⟨tid, seqNum, hfold, hmin, hpick⟩ := foldl_consider rest first.1
        (Nat.mod_lt first.2 (by norm_num : 0 < 2 ^ 32))
      rw [List.foldl_cons, consider, hfold, Option.map_some, FirstFits, PicksOldest, hc,
        List.head?_cons]
      rcases hpick with heq | ⟨hmem, hlt⟩
      · -- the first candidate is picked: its cut number hides every other one
        obtain ⟨rfl, rfl⟩ := Prod.mk.inj heq
        constructor
        · rintro ⟨num, hnum, holdest⟩ c hfirst ⟨d, hd, hlt⟩
          obtain rfl := Option.some.inj hfirst
          have hsame : num = first.2 := by
            rw [← hc] at hnum
            have hhead := headReady_of_mem hnum
            have hfirst := headReady_of_mem (hc ▸ List.mem_cons_self : first ∈ candidates _ _)
            exact Option.some.inj (hhead.symm.trans hfirst)
          exact absurd hlt (Nat.not_lt.mpr (hsame ▸ holdest d hd))
        · intro hfits
          refine ⟨first.2, List.mem_cons_self, fun c hmem => Nat.not_lt.mp fun hlt => ?_⟩
          obtain ⟨d, hd, hlow⟩ := hfits first rfl ⟨c, hmem, hlt⟩
          rcases List.mem_cons.mp hd with rfl | hd
          · exact absurd hlow (Nat.not_lt.mpr hmod)
          · exact absurd hlow (Nat.not_lt.mpr (hmin d hd))
      · -- a later candidate is picked, which is below the cut number of the first
        refine ⟨fun _ c hfirst _ => ?_, fun _ => ?_⟩
        · obtain rfl := Option.some.inj hfirst
          exact ⟨_, List.mem_cons_of_mem _ hmem, hlt⟩
        · refine ⟨seqNum, List.mem_cons_of_mem _ hmem, fun c hc => ?_⟩
          rcases List.mem_cons.mp hc with rfl | hc
          · exact (hlt.trans_le hmod).le
          · exact hmin c hc

/-! ## Long runs -/

/-- A buffer of `4` entries for two threads, for examples. -/
def pair : Params := ⟨.Partitioned, 4, 1, 0, by decide⟩

/-- The heads of two threads are inserted and complete. -/
def twoHeads (seqNum seqNum' : InstSeqNum) : List (Action 2) :=
  [.setActiveThreads (.finRange 2), .insertInst (.last 1) ⟨seqNum', false, true⟩,
    .insertInst ⟨0, Nat.two_pos⟩ ⟨seqNum, false, true⟩]

/-- Both numbers fit in 32 bits, and the younger thread comes first. -/
theorem oldestReady_iff_small :
    ∃ rob, run (step pair) (init pair 2) (twoHeads 9 7) = .ok rob ∧
      ∃ tid, oldestReady rob (fun _ => .Running) = .ok tid ∧
        (PicksOldest rob (fun _ => .Running) tid ↔ FirstFits rob fun _ => .Running) := by
  obtain ⟨rob, hrob, -⟩ : ∃ rob, run (step pair) (init pair 2) (twoHeads 9 7) = .ok rob ∧
      candidates rob (fun _ => .Running) = [(0, 9), (1, 7)] := by
    decide +kernel
  exact ⟨rob, hrob, oldestReady_iff pair ⟨_, admitted_of_forall fun _ _ _ => trivial, hrob⟩ _⟩

/-- The head of thread `0` is `2 ^ 32 + 5`, which is cut to `5`; the older head `2 ^ 32 + 3` of
thread `1` is not below it. -/
theorem younger_thread_picked :
    ∃ rob, run (step pair) (init pair 2) (twoHeads (2 ^ 32 + 5) (2 ^ 32 + 3)) = .ok rob ∧
      (oldestReady rob (fun _ => .Running) = .ok (some 0) ∧
        ¬ PicksOldest rob (fun _ => .Running) (some 0)) := by
  obtain ⟨rob, hrob, hpick, hc⟩ :
      ∃ rob, run (step pair) (init pair 2) (twoHeads (2 ^ 32 + 5) (2 ^ 32 + 3)) = .ok rob ∧
        (oldestReady rob (fun _ => .Running) = .ok (some 0) ∧
          candidates rob (fun _ => .Running) = [(0, 2 ^ 32 + 5), (1, 2 ^ 32 + 3)]) := by
    decide +kernel
  refine ⟨rob, hrob, hpick, fun ⟨seqNum, hmem, holdest⟩ => ?_⟩
  rw [hc] at hmem holdest
  have hseq : seqNum = 2 ^ 32 + 5 := by
    rcases List.mem_cons.mp hmem with heq | hmem
    · exact congrArg Prod.snd heq
    · have htid : (0 : Fin 2) = 1 := congrArg Prod.fst (List.mem_singleton.mp hmem)
      exact absurd htid (by decide)
  have hle := holdest (1, 2 ^ 32 + 3) (by decide)
  rw [hseq] at hle
  exact absurd hle (by decide)

end Gem5.Commit
