/-
# Admission to the load/store queue under SMT

Embedding of the occupancy predicates of `LSQ` (`cpu/o3/lsq.cc`) and their
agreement with the not-full assertions of `LSQUnit::insertLoad` and
`LSQUnit::insertStore`.

The per-thread predicates ask the shared ones under the dynamic policy, and the
shared store-queue predicate asks the per-thread one again instead of the
thread's unit.  The predicates are therefore given with the depth of their call
stack, and a call returns when some depth is enough.
-/
import Gem5.Runs
import Gem5.LsqUnit

open Runs

namespace Gem5.Lsq

/-! ## The shared queue -/

/-- `LSQ`: the units of `n` hardware threads behind one sharing policy. -/
structure LSQ (n : ℕ) where
  lsqPolicy : SMTQueuePolicy
  activeThreads : List (Fin n)
  thread : Fin n → LSQUnit

/-- `LSQ::maxLSQAllocation` -/
def maxLSQAllocation (pol : SMTQueuePolicy) (entries numThreads SMTThreshold : ℕ) : ℕ :=
  match pol with
  | .Dynamic => entries
  | .Partitioned => entries / numThreads
  | .Threshold => SMTThreshold

/-- The constructor of `LSQ`; `none` when one of its assertions fails. -/
def LSQ.new (n : ℕ) (pol : SMTQueuePolicy) (LQEntries SQEntries smtLSQThreshold : ℕ)
    (depCheckShift : ℕ) (checkLoads : Bool) : Option (LSQ n) :=
  if n = 0 then none
  else if pol = .Threshold ∧ ¬ (smtLSQThreshold > LQEntries ∧ smtLSQThreshold > SQEntries) then
    none
  else some
    { lsqPolicy := pol
      activeThreads := []
      thread := fun _ => .new (maxLSQAllocation pol LQEntries n smtLSQThreshold)
        (maxLSQAllocation pol SQEntries n smtLSQThreshold) depCheckShift checkLoads }

variable {n : ℕ}

/-- The loop over the active threads that the shared predicates run: `false` at
the first thread that has room.  A call that does not return ends the loop. -/
def allThreads (full : Fin n → Option Bool) : List (Fin n) → Option Bool
  | [] => some true
  | tid :: tids =>
      match full tid with
      | none => none
      | some false => some false
      | some true => allThreads full tids

/-- `LSQ::isFull()` -/
def LSQ.isFull (s : LSQ n) : ℕ → Option Bool
  | 0 => none
  | _ + 1 => allThreads (fun tid => some ((s.thread tid).lqFull || (s.thread tid).sqFull))
      s.activeThreads

/-- `LSQ::isFull(tid)` -/
def LSQ.isFullOf (s : LSQ n) (tid : Fin n) : ℕ → Option Bool
  | 0 => none
  | k + 1 =>
      if s.lsqPolicy = .Dynamic then s.isFull k
      else some ((s.thread tid).lqFull || (s.thread tid).sqFull)

/-- `LSQ::lqFull()` -/
def LSQ.lqFull (s : LSQ n) : ℕ → Option Bool
  | 0 => none
  | _ + 1 => allThreads (fun tid => some (s.thread tid).lqFull) s.activeThreads

/-- `LSQ::lqFull(tid)` -/
def LSQ.lqFullOf (s : LSQ n) (tid : Fin n) : ℕ → Option Bool
  | 0 => none
  | k + 1 => if s.lsqPolicy = .Dynamic then s.lqFull k else some (s.thread tid).lqFull

mutual

/-- `LSQ::sqFull()`, which calls `sqFull(tid)` where its siblings ask the unit. -/
def LSQ.sqFull (s : LSQ n) : ℕ → Option Bool
  | 0 => none
  | k + 1 => allThreads (fun tid => s.sqFullOf tid k) s.activeThreads

/-- `LSQ::sqFull(tid)` -/
def LSQ.sqFullOf (s : LSQ n) (tid : Fin n) : ℕ → Option Bool
  | 0 => none
  | k + 1 => if s.lsqPolicy = .Dynamic then s.sqFull k else some (s.thread tid).sqFull

end

/-! ## Calls that return -/

/-- The call returns `b` at some depth of the call stack. -/
def Returns (call : ℕ → Option Bool) (b : Bool) : Prop := ∃ k, call k = some b

def Terminates (call : ℕ → Option Bool) : Prop := ∃ b, Returns call b

/-- Admission agrees with insertion: the five predicates return for every thread,
and a thread whose predicate says there is room passes the assertion of the
insertion. -/
structure AdmissionAgrees (s : LSQ n) : Prop where
  lqFullOf_returns : ∀ tid, Terminates (s.lqFullOf tid)
  sqFullOf_returns : ∀ tid, Terminates (s.sqFullOf tid)
  isFullOf_returns : ∀ tid, Terminates (s.isFullOf tid)
  lqFull_returns : Terminates s.lqFull
  sqFull_returns : Terminates s.sqFull
  load_room : ∀ tid inst, Returns (s.lqFullOf tid) false →
    (s.thread tid).insertLoad inst ≠ .error .loadQueueFull
  store_room : ∀ tid inst, Returns (s.sqFullOf tid) false →
    (s.thread tid).insertStore inst ≠ .error .storeQueueFull

/-! ## The loop over the threads -/

/-- If every call returns, the loop returns. -/
theorem allThreads_returns (full : Fin n → Option Bool) (tids : List (Fin n))
    (h : ∀ tid ∈ tids, full tid ≠ none) : ∃ b, allThreads full tids = some b := by
  induction tids with
  | nil => exact ⟨true, rfl⟩
  | cons tid tids ih =>
    cases hf : full tid with
    | none => exact absurd hf (h tid List.mem_cons_self)
    | some b =>
      cases b with
      | false => exact ⟨false, by simp only [allThreads, hf]⟩
      | true =>
        obtain ⟨b, hb⟩ := ih fun t ht => h t (List.mem_cons_of_mem tid ht)
        exact ⟨b, by simp only [allThreads, hf, hb]⟩

/-- If no call returns, the loop over some thread does not return. -/
theorem allThreads_stuck {full : Fin n → Option Bool} {tids : List (Fin n)} (hne : tids ≠ [])
    (h : ∀ tid, full tid = none) : allThreads full tids = none := by
  cases tids with
  | nil => exact absurd rfl hne
  | cons tid tids => simp only [allThreads, h tid]

/-! ## Insertion -/

theorem trackHtm_error {u : LSQUnit} {q : InstSeqNum} {e : Fail} (h : u.trackHtm q = .error e) :
    e = .htmState := by
  unfold LSQUnit.trackHtm at h
  rcases bind_eq_error.mp h with h1 | ⟨_, _, h1⟩
  · split at h1
    · unfold LSQUnit.startHtm at h1
      dsimp only at h1
      split at h1
      · cases h1
        rfl
      · split at h1 <;> cases h1
    · cases h1
  · cases h1

theorem LSQEntry.set_error {x : LSQEntry} {q : InstSeqNum} {e : Fail} (h : x.set q = .error e) :
    e = .entryValid := by
  rcases bind_eq_error.mp h with h1 | ⟨_, _, h1⟩
  · exact (require_eq_error.mp h1).2.symm
  · cases h1

/-- A unit with room passes the assertion of `insertLoad`. -/
theorem insertLoad_ne_full {u : LSQUnit} (h : u.lqFull = false) (inst : InstSeqNum) :
    u.insertLoad inst ≠ .error .loadQueueFull := by
  have hfull : u.loadQueue.full = false := h
  intro herr
  unfold LSQUnit.insertLoad at herr
  rcases bind_eq_error.mp herr with h1 | ⟨_, _, herr⟩
  · rw [require_eq_error, hfull] at h1
    cases h1.1
  rcases bind_eq_error.mp herr with h2 | ⟨_, _, herr⟩
  · cases (require_eq_error.mp h2).2
  rcases bind_eq_error.mp herr with h3 | ⟨_, _, herr⟩
  · cases LSQEntry.set_error h3
  rcases bind_eq_error.mp herr with h4 | ⟨_, _, herr⟩
  · cases (require_eq_error.mp h4).2
  · cases trackHtm_error herr

/-- A unit with room passes the assertion of `insertStore`. -/
theorem insertStore_ne_full {u : LSQUnit} (h : u.sqFull = false) (inst : InstSeqNum) :
    u.insertStore inst ≠ .error .storeQueueFull := by
  have hfull : u.storeQueue.full = false := h
  intro herr
  unfold LSQUnit.insertStore at herr
  rcases bind_eq_error.mp herr with h1 | ⟨_, _, herr⟩
  · rw [require_eq_error, hfull] at h1
    cases h1.1
  rcases bind_eq_error.mp herr with h2 | ⟨_, _, herr⟩
  · cases (require_eq_error.mp h2).2
  rcases bind_eq_error.mp herr with h3 | ⟨_, _, herr⟩
  · cases (require_eq_error.mp h3).2
  rcases bind_eq_error.mp herr with h4 | ⟨_, _, herr⟩
  · rcases bind_eq_error.mp h4 with h5 | ⟨_, _, h5⟩
    · cases LSQEntry.set_error h5
    · cases h5
  · cases herr

/-! ## Policies that keep the queues apart -/

/-- A per-thread predicate that only asks the thread's unit returns its answer. -/
theorem returns_false_of_const {call : ℕ → Option Bool} {b : Bool}
    (hcall : ∀ k, call (k + 1) = some b) (hzero : call 0 = none) (h : Returns call false) :
    b = false := by
  obtain ⟨k, hk⟩ := h
  cases k with
  | zero => rw [hzero] at hk; cases hk
  | succ k =>
    rw [hcall k] at hk
    exact Option.some.inj hk

section Static

variable {s : LSQ n} (hpol : s.lsqPolicy ≠ .Dynamic)
include hpol

theorem lqFullOf_static (tid : Fin n) (k : ℕ) :
    s.lqFullOf tid (k + 1) = some (s.thread tid).lqFull := by
  show (if s.lsqPolicy = .Dynamic then _ else _) = _
  rw [if_neg hpol]

theorem isFullOf_static (tid : Fin n) (k : ℕ) :
    s.isFullOf tid (k + 1) = some ((s.thread tid).lqFull || (s.thread tid).sqFull) := by
  show (if s.lsqPolicy = .Dynamic then _ else _) = _
  rw [if_neg hpol]

theorem sqFullOf_static (tid : Fin n) (k : ℕ) :
    s.sqFullOf tid (k + 1) = some (s.thread tid).sqFull := by
  rw [LSQ.sqFullOf, if_neg hpol]

theorem admissionAgrees_static : AdmissionAgrees s where
  lqFullOf_returns tid := ⟨_, 1, lqFullOf_static hpol tid 0⟩
  sqFullOf_returns tid := ⟨_, 1, sqFullOf_static hpol tid 0⟩
  isFullOf_returns tid := ⟨_, 1, isFullOf_static hpol tid 0⟩
  lqFull_returns := by
    obtain ⟨b, hb⟩ := allThreads_returns (fun tid => some (s.thread tid).lqFull)
      s.activeThreads (by simp)
    exact ⟨b, 1, hb⟩
  sqFull_returns := by
    obtain ⟨b, hb⟩ := allThreads_returns (fun tid => s.sqFullOf tid 1)
      s.activeThreads fun tid _ => by simp [sqFullOf_static hpol tid 0]
    exact ⟨b, 2, by rw [LSQ.sqFull, hb]⟩
  load_room tid inst h := by
    apply insertLoad_ne_full
    exact returns_false_of_const (lqFullOf_static hpol tid) rfl h
  store_room tid inst h := by
    apply insertStore_ne_full
    exact returns_false_of_const (sqFullOf_static hpol tid) (by rw [LSQ.sqFullOf]) h

end Static

/-! ## The dynamic policy -/

section Dynamic

variable {s : LSQ n} (hpol : s.lsqPolicy = .Dynamic)
include hpol

/-- With no active thread every shared predicate says that the queue is full. -/
theorem admissionAgrees_idle (hidle : s.activeThreads = []) : AdmissionAgrees s := by
  have hlq : ∀ k, s.lqFull (k + 1) = some true := fun k => by rw [LSQ.lqFull, hidle]; rfl
  have hsq : ∀ k, s.sqFull (k + 1) = some true := fun k => by rw [LSQ.sqFull, hidle]; rfl
  have his : ∀ k, s.isFull (k + 1) = some true := fun k => by rw [LSQ.isFull, hidle]; rfl
  have hlqOf : ∀ tid k, s.lqFullOf tid (k + 1) = s.lqFull k := fun tid k => by
    rw [LSQ.lqFullOf, if_pos hpol]
  have hsqOf : ∀ tid k, s.sqFullOf tid (k + 1) = s.sqFull k := fun tid k => by
    rw [LSQ.sqFullOf, if_pos hpol]
  have hisOf : ∀ tid k, s.isFullOf tid (k + 1) = s.isFull k := fun tid k => by
    rw [LSQ.isFullOf, if_pos hpol]
  -- a shared predicate never answers `false`, so no insertion is admitted
  have hnever : ∀ (shared call : ℕ → Option Bool), (∀ k, shared (k + 1) = some true) →
      shared 0 = none → call 0 = none → (∀ k, call (k + 1) = shared k) → ¬ Returns call false := by
    intro shared call h1 h0 hc0 hc
    rintro ⟨k, hk⟩
    rcases k with _ | _ | k
    · rw [hc0] at hk; cases hk
    · rw [hc, h0] at hk; cases hk
    · rw [hc, h1] at hk; cases hk
  constructor
  · intro tid
    exact ⟨true, 2, by rw [hlqOf, hlq]⟩
  · intro tid
    exact ⟨true, 2, by rw [hsqOf, hsq]⟩
  · intro tid
    exact ⟨true, 2, by rw [hisOf, his]⟩
  · exact ⟨true, 1, hlq 0⟩
  · exact ⟨true, 1, hsq 0⟩
  · intro tid inst h
    exact absurd h (hnever s.lqFull _ hlq rfl rfl (hlqOf tid))
  · intro tid inst h
    exact absurd h (hnever s.sqFull _ hsq (by rw [LSQ.sqFull]) (by rw [LSQ.sqFullOf]) (hsqOf tid))

/-- **Under the dynamic policy the store-queue predicates call each other for
ever** as soon as a thread is active. -/
theorem sqFull_stuck (hactive : s.activeThreads ≠ []) (k : ℕ) :
    s.sqFull k = none ∧ ∀ tid, s.sqFullOf tid k = none := by
  induction k with
  | zero => exact ⟨by rw [LSQ.sqFull], fun tid => by rw [LSQ.sqFullOf]⟩
  | succ k ih =>
    refine ⟨?_, fun tid => ?_⟩
    · rw [LSQ.sqFull]
      exact allThreads_stuck hactive ih.2
    · rw [LSQ.sqFullOf, if_pos hpol]
      exact ih.1

end Dynamic

/-! ## Main result -/

/-- **Admission agrees with insertion** exactly when the policy is not the dynamic
one, or no thread is active. -/
theorem admissionAgrees_iff (s : LSQ n) :
    AdmissionAgrees s ↔ s.lsqPolicy ≠ .Dynamic ∨ s.activeThreads = [] := by
  constructor
  · intro h
    by_contra hcon
    obtain ⟨hpol, hactive⟩ := not_or.mp hcon
    obtain ⟨b, k, hk⟩ := h.sqFull_returns
    rw [(sqFull_stuck (not_not.mp hpol) hactive k).1] at hk
    cases hk
  · rintro (hpol | hidle)
    · exact admissionAgrees_static hpol
    · by_cases hpol : s.lsqPolicy = .Dynamic
      · exact admissionAgrees_idle hpol hidle
      · exact admissionAgrees_static hpol

/-- Two active threads under the dynamic policy, with room for one access each;
thread `0` holds two loads, so its queue (one spare slot included) is full. -/
def sharedPair : LSQ 2 where
  lsqPolicy := .Dynamic
  activeThreads := .finRange 2
  thread := fun tid =>
    let u : LSQUnit := .new 1 1 0 false
    if tid.val = 0 then { u with loadQueue := { u.loadQueue with size := 2 }, loads := 2 } else u

/-- On `sharedPair` the store-queue predicate does not return, and the load-queue
predicate admits a load that the insertion asserts away. -/
theorem sharedPair_disagrees : ¬ AdmissionAgrees sharedPair ∧
    (¬ Terminates sharedPair.sqFull) ∧ Returns (sharedPair.lqFullOf 0) false ∧
      (sharedPair.thread 0).insertLoad 7 = .error .loadQueueFull := by
  have hstuck := sqFull_stuck (s := sharedPair) rfl (by decide)
  have hsq : ¬ Terminates sharedPair.sqFull := by
    rintro ⟨b, k, hk⟩
    rw [(hstuck k).1] at hk
    cases hk
  exact ⟨fun h => hsq h.sqFull_returns, hsq, ⟨2, rfl⟩, rfl⟩

end Gem5.Lsq
