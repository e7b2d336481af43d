/-
# Which thread fetches

Embedding of the choice of `Fetch::getFetchingThread` (`cpu/o3/fetch.cc`) under the policies that
are implemented, with what changes the lists it reads: `resetStage`, `clearStates` and
`deactivateThread` of fetch, and `activateThread`, `deactivateThread` and `updateThreadPriority` of
the CPU (`cpu/o3/cpu.cc`).

The changes of the fetch status come from elsewhere and are arbitrary, and so are the counts that
the execute stage reports.
-/
import Gem5.FetchPort

open Runs

namespace Gem5.Frontend.Policy

/-! ## The choice -/

/-- `SMTFetchPolicy` -/
inductive SMTFetchPolicy where
  | RoundRobin
  | Branch
  | IQCount
  | LSQCount
  deriving DecidableEq, Repr

structure Params where
  numThreads : ℕ
  fetchPolicy : SMTFetchPolicy
  deriving DecidableEq, Repr

/-- The variables that the choice reads: the list of the active threads belongs to the CPU. -/
structure Fetch where
  activeThreads : List ℕ
  priorityList : List ℕ
  fetchStatus : ℕ → ThreadStatus

/-- What the execute stage reports about a thread. -/
structure IewInfo where
  iqCount : ℕ
  ldstqCount : ℕ
  deriving DecidableEq, Repr

/-- `assert(high_pri <= numThreads)`, and the panic of the branch policy. -/
inductive PolicyFail where
  | badThread
  | unimplemented
  deriving DecidableEq, Repr

/-- A thread that can fetch: it is `Running`, `IcacheAccessComplete` or `Idle`. -/
def canFetch (status : ThreadStatus) : Bool :=
  status == .Running || status == .IcacheAccessComplete || status == .Idle

/-- The loop of `roundRobin`, past the threads `skipped`; the thread that is chosen goes to the end
of the list. -/
def roundRobinLoop (numThreads : ℕ) (fetchStatus : ℕ → ThreadStatus) (skipped : List ℕ) :
    List ℕ → Except PolicyFail (Option ℕ × List ℕ)
  | [] => .ok (none, skipped)
  | high_pri :: rest => do
    require .badThread (decide (high_pri ≤ numThreads))
    if canFetch (fetchStatus high_pri) then return (some high_pri, skipped ++ rest ++ [high_pri])
    else roundRobinLoop numThreads fetchStatus (skipped ++ [high_pri]) rest

/-- `roundRobin()` -/
def roundRobin (p : Params) (s : Fetch) : Except PolicyFail (Option ℕ × Fetch) := do
  let (tid, priorityList) ← roundRobinLoop p.numThreads s.fetchStatus [] s.priorityList
  return (tid, { s with priorityList := priorityList })

/-- `threadMap`: the last thread with a count is the one that stays. -/
def threadMap (count : ℕ → ℕ) (activeThreads : List ℕ) : ℕ → ℕ :=
  activeThreads.foldl (fun m tid => Function.update m (count tid) tid) fun _ => 0

/-- The second loop of `iqCount` and `lsqCount`, over the counts from the smallest on. -/
def countLoop (fetchStatus : ℕ → ThreadStatus) (threadMap : ℕ → ℕ) : List ℕ → Option ℕ
  | [] => none
  | top :: pq =>
    if canFetch (fetchStatus (threadMap top)) then some (threadMap top)
    else countLoop fetchStatus threadMap pq

/-- What `iqCount` and `lsqCount` have in common. -/
def byCount (s : Fetch) (count : ℕ → ℕ) : Option ℕ :=
  countLoop s.fetchStatus (threadMap count s.activeThreads)
    ((s.activeThreads.map count).insertionSort (· ≤ ·))

/-- `iqCount()` -/
def iqCount (s : Fetch) (iewInfo : ℕ → IewInfo) : Option ℕ :=
  byCount s fun tid => (iewInfo tid).iqCount

/-- `lsqCount()` -/
def lsqCount (s : Fetch) (iewInfo : ℕ → IewInfo) : Option ℕ :=
  byCount s fun tid => (iewInfo tid).ldstqCount

/-- `getFetchingThread()` -/
def getFetchingThread (p : Params) (s : Fetch) (iewInfo : ℕ → IewInfo) :
    Except PolicyFail (Option ℕ × Fetch) :=
  if p.numThreads > 1 then
    match p.fetchPolicy with
    | .RoundRobin => roundRobin p s
    | .IQCount => .ok (iqCount s iewInfo, s)
    | .LSQCount => .ok (lsqCount s iewInfo, s)
    | .Branch => .error .unimplemented
  else
    match s.activeThreads with
    | [] => .ok (none, s)
    | tid :: _ => .ok (if canFetch (s.fetchStatus tid) then some tid else none, s)

/-! ## The history -/

/-- `resetStage()` -/
def resetStage (p : Params) (s : Fetch) : Fetch :=
  { s with
    fetchStatus := fun tid => if tid < p.numThreads then .Running else s.fetchStatus tid
    priorityList := List.range p.numThreads }

/-- `clearStates(tid)` -/
def clearStates (s : Fetch) (tid : ℕ) : Fetch :=
  { s with fetchStatus := Function.update s.fetchStatus tid .Running }

/-- `CPU::activateThread(tid)` -/
def activateThread (s : Fetch) (tid : ℕ) : Fetch :=
  if tid ∈ s.activeThreads then s else { s with activeThreads := s.activeThreads ++ [tid] }

/-- `deactivateThread(tid)` of the CPU and of fetch. -/
def deactivateThread (s : Fetch) (tid : ℕ) : Fetch :=
  { s with
    activeThreads := s.activeThreads.erase tid
    priorityList := s.priorityList.erase tid }

/-- `CPU::updateThreadPriority()` -/
def updateThreadPriority (s : Fetch) : Fetch :=
  match s.activeThreads with
  | high_thread :: other :: rest =>
    { s with activeThreads := other :: rest ++ [high_thread] }
  | _ => s

/-- What happens to the lists and the status, in any order. -/
inductive Event where
  | resetStage
  | clearStates (tid : ℕ)
  | activateThread (tid : ℕ)
  | deactivateThread (tid : ℕ)
  | updateThreadPriority
  | setStatus (tid : ℕ) (status : ThreadStatus)
  | select (iewInfo : ℕ → IewInfo)

/-- Fetch, and which threads have been deactivated since the last reset. -/
structure World where
  fetch : Fetch
  gone : List ℕ := []

/-- The start of the simulation: no thread is active. -/
def World.start (p : Params) : World := ⟨resetStage p ⟨[], [], fun _ => .Idle⟩, []⟩

/-- One event. -/
def step (p : Params) (w : World) : Event → Except PolicyFail World
  | .resetStage => .ok ⟨resetStage p w.fetch, []⟩
  | .clearStates tid => .ok { w with fetch := clearStates w.fetch tid }
  | .activateThread tid => .ok { w with fetch := activateThread w.fetch tid }
  | .deactivateThread tid => .ok ⟨deactivateThread w.fetch tid, tid :: w.gone⟩
  | .updateThreadPriority => .ok { w with fetch := updateThreadPriority w.fetch }
  | .setStatus tid status =>
    .ok { w with
      fetch := { w.fetch with fetchStatus := Function.update w.fetch.fetchStatus tid status } }
  | .select iewInfo => do
    let r ← getFetchingThread p w.fetch iewInfo
    return { w with fetch := r.2 }

/-! ## What the choice should be -/

/-- A thread that is active and can fetch. -/
def Eligible (s : Fetch) (tid : ℕ) : Prop :=
  tid ∈ s.activeThreads ∧ canFetch (s.fetchStatus tid) = true

/-- An eligible thread with the smallest count of all. -/
def Least (s : Fetch) (count : ℕ → ℕ) (tid : ℕ) : Prop :=
  Eligible s tid ∧ ∀ other, Eligible s other → count tid ≤ count other

/-- The count that a policy goes by. -/
def countOf (policy : SMTFetchPolicy) (iewInfo : ℕ → IewInfo) : Option (ℕ → ℕ) :=
  match policy with
  | .IQCount => some fun tid => (iewInfo tid).iqCount
  | .LSQCount => some fun tid => (iewInfo tid).ldstqCount
  | _ => none

/-- **The right choice**: no thread only if none is eligible, and else an eligible one, under the
count policies with the smallest count. -/
def Right (p : Params) (s : Fetch) (iewInfo : ℕ → IewInfo) : Option ℕ → Prop
  | none => ∀ tid, ¬ Eligible s tid
  | some tid => Eligible s tid ∧
      ∀ count, countOf p.fetchPolicy iewInfo = some count → Least s count tid

/-- **The last of the least**: of the active threads whose count is the smallest of an eligible one,
the last is eligible. -/
def LastOfLeast (s : Fetch) (count : ℕ → ℕ) : Prop :=
  ∀ tid, Least s count tid → ∀ last,
    (s.activeThreads.filter fun other => count other = count tid).getLast? = some last →
      canFetch (s.fetchStatus last) = true

/-- What threads exist, and the condition: under round robin no thread is activated again after it
has been deactivated, and a choice is made only while all others are active; under the count
policies the last of the least is eligible whenever a choice is made. -/
def Admissible (p : Params) (w : World) : Event → Prop
  | .activateThread tid => tid < p.numThreads ∧
      (1 < p.numThreads → p.fetchPolicy = .RoundRobin → tid ∉ w.gone)
  | .select iewInfo => 1 < p.numThreads →
      (p.fetchPolicy = .RoundRobin →
        ∀ tid < p.numThreads, tid ∉ w.gone → tid ∈ w.fetch.activeThreads) ∧
      ∀ count, countOf p.fetchPolicy iewInfo = some count → LastOfLeast w.fetch count
  | _ => True

/-! ## Round robin -/

/-- The loop finds the first thread that can fetch, and only reorders the list. -/
theorem roundRobinLoop_eq {numThreads : ℕ} (fetchStatus : ℕ → ThreadStatus) {rest : List ℕ}
    (hle : ∀ tid ∈ rest, tid ≤ numThreads) (skipped : List ℕ) :
    ∃ list, roundRobinLoop numThreads fetchStatus skipped rest
        = .ok (rest.find? fun tid => canFetch (fetchStatus tid), list) ∧
      list.Perm (skipped ++ rest) := by
  induction rest generalizing skipped with
  | nil => exact ⟨skipped, rfl, by simp⟩
  | cons high_pri rest ih =>
    have hassert := require_ok (e := PolicyFail.badThread)
      (decide_eq_true (hle high_pri List.mem_cons_self))
    cases hcan : canFetch (fetchStatus high_pri) with
    | true =>
      refine ⟨skipped ++ rest ++ [high_pri], bind_eq_ok.mpr ⟨(), hassert, ?_⟩, ?_⟩
      · rw [if_pos hcan]
        simp only [List.find?_cons, hcan]
        rfl
      · rw [List.append_assoc]
        exact List.Perm.append_left skipped (List.perm_append_singleton high_pri rest)
    | false =>
      obtain ⟨list, hloop, hperm⟩ := ih (fun tid h => hle tid (List.mem_cons_of_mem high_pri h))
        (skipped ++ [high_pri])
      have hno : ¬ canFetch (fetchStatus high_pri) = true := by simp [hcan]
      refine ⟨list, bind_eq_ok.mpr ⟨(), hassert, ?_⟩, by simpa using hperm⟩
      rw [if_neg hno]
      simpa only [List.find?_cons, hcan] using hloop

theorem roundRobin_eq {p : Params} {s : Fetch} (hle : ∀ tid ∈ s.priorityList, tid ≤ p.numThreads) :
    ∃ list, roundRobin p s = .ok (s.priorityList.find? fun tid => canFetch (s.fetchStatus tid),
        { s with priorityList := list }) ∧ list.Perm s.priorityList := by
  obtain ⟨list, hloop, hperm⟩ := roundRobinLoop_eq s.fetchStatus hle []
  exact ⟨list, bind_eq_ok.mpr ⟨_, hloop, rfl⟩, hperm⟩

/-! ## The count policies -/

section Counts

variable {s : Fetch} {count : ℕ → ℕ}

/-- The map has the last of the active threads with a count. -/
theorem threadMap_eq {activeThreads : List ℕ} {c last : ℕ}
    (h : (activeThreads.filter fun tid => count tid = c).getLast? = some last) :
    threadMap count activeThreads c = last := by
  induction activeThreads using List.reverseRecOn with
  | nil => cases h
  | append_singleton tids tid ih =>
    rw [threadMap, List.foldl_append, List.foldl_cons, List.foldl_nil]
    rw [List.filter_append] at h
    by_cases hc : count tid = c
    · rw [List.filter_cons_of_pos (by simpa using hc), List.filter_nil, List.getLast?_concat] at h
      rw [hc, Function.update_self]
      exact Option.some.inj h
    · rw [List.filter_cons_of_neg (by simpa using hc), List.filter_nil, List.append_nil] at h
      rw [Function.update_of_ne (Ne.symm hc)]
      exact ih h

/-- Every count of an active thread has a last thread. -/
theorem exists_last (count : ℕ → ℕ) {tid : ℕ} (h : tid ∈ s.activeThreads) :
    ∃ last ∈ s.activeThreads, count last = count tid ∧
      (s.activeThreads.filter fun other => count other = count tid).getLast? = some last := by
  have hne : (s.activeThreads.filter fun other => count other = count tid) ≠ [] :=
    List.ne_nil_of_mem (List.mem_filter.mpr ⟨h, by simp⟩)
  have hmem := List.mem_filter.mp (List.getLast_mem hne)
  exact ⟨_, hmem.1, by simpa using hmem.2, List.getLast?_eq_some_getLast hne⟩

/-- The loop over the counts in order ends with the first whose thread can fetch. -/
theorem countLoop_spec (fetchStatus : ℕ → ThreadStatus) (m : ℕ → ℕ) {pq : List ℕ}
    (hsorted : pq.Pairwise (· ≤ ·)) :
    (∀ tid, countLoop fetchStatus m pq = some tid → ∃ c ∈ pq, m c = tid ∧
        canFetch (fetchStatus tid) = true ∧
        ∀ c' ∈ pq, canFetch (fetchStatus (m c')) = true → c ≤ c') ∧
      (countLoop fetchStatus m pq = none → ∀ c ∈ pq, canFetch (fetchStatus (m c)) = false) := by
  induction pq with
  | nil => exact ⟨fun tid h => (by cases h), fun _ c hc => (by cases hc)⟩
  | cons top pq ih =>
    obtain ⟨htop, hsorted⟩ := List.pairwise_cons.mp hsorted
    obtain ⟨ihSome, ihNone⟩ := ih hsorted
    unfold countLoop
    split_ifs with hcan
    · refine ⟨fun tid h => ?_, fun h => (by cases h)⟩
      obtain rfl := Option.some.inj h
      refine ⟨top, List.mem_cons_self, rfl, hcan, fun c' hc' _ => ?_⟩
      rcases List.mem_cons.mp hc' with rfl | hc'
      · exact le_rfl
      · exact htop c' hc'
    · refine ⟨fun tid h => ?_, fun h c hc => ?_⟩
      · obtain ⟨c, hc, hm, htid, hleast⟩ := ihSome tid h
        refine ⟨c, List.mem_cons_of_mem top hc, hm, htid, fun c' hc' hcan' => ?_⟩
        rcases List.mem_cons.mp hc' with rfl | hc'
        · exact absurd hcan' hcan
        · exact hleast c' hc' hcan'
      · rcases List.mem_cons.mp hc with rfl | hc
        · simpa using hcan
        · exact ihNone h c hc

/-- Where a thread is eligible, there is one with the smallest count. -/
theorem exists_least {tid : ℕ} (h : Eligible s tid) (count : ℕ → ℕ) :
    ∃ least, Least s count least := by
  classical
  let eligible := s.activeThreads.toFinset.filter fun tid => canFetch (s.fetchStatus tid) = true
  have hmem : ∀ tid, tid ∈ eligible ↔ Eligible s tid := fun tid => by
    simp [eligible, Eligible]
  obtain ⟨least, hleast, hmin⟩ := eligible.exists_min_image count ⟨tid, (hmem tid).mpr h⟩
  exact ⟨least, (hmem least).mp hleast, fun other ho => hmin other ((hmem other).mpr ho)⟩

/-- **The choice by a count is right exactly if the last of the least is eligible.** -/
theorem byCount_right_iff :
    ((byCount s count = none → ∀ tid, ¬ Eligible s tid) ∧
        ∀ tid, byCount s count = some tid → Least s count tid) ↔ LastOfLeast s count := by
  have hsorted := List.pairwise_insertionSort (· ≤ ·) (s.activeThreads.map count)
  have hpq : ∀ c, c ∈ (s.activeThreads.map count).insertionSort (· ≤ ·) ↔
      ∃ tid ∈ s.activeThreads, count tid = c := fun c => by
    rw [(List.perm_insertionSort (· ≤ ·) _).mem_iff, List.mem_map]
  obtain ⟨hsome, hnone⟩ :=
    countLoop_spec s.fetchStatus (threadMap count s.activeThreads) hsorted
  have hlast : ∀ tid last, (s.activeThreads.filter fun other => count other = count tid).getLast?
      = some last → threadMap count s.activeThreads (count tid) = last :=
    fun tid last => threadMap_eq
  constructor
  · rintro ⟨hright, hleast⟩ tid htid last hl
    cases hchoice : byCount s count with
    | none => exact absurd htid.1 (hright hchoice tid)
    | some choice =>
      have hchoiceLeast := hleast choice hchoice
      obtain ⟨c, hc, hm, hcan, -⟩ := hsome choice hchoice
      obtain ⟨t, ht, rfl⟩ := (hpq c).mp hc
      obtain ⟨last', -, hcount, hl'⟩ := exists_last count ht
      obtain rfl : choice = last' := hm.symm.trans (hlast t last' hl')
      have heq : count tid = count t := by
        rw [← hcount]
        exact le_antisymm (htid.2 choice hchoiceLeast.1) (hchoiceLeast.2 tid htid.1)
      rw [heq] at hl
      rwa [Option.some.inj (hl.symm.trans hl')]
  · intro hlastOfLeast
    have hwinner : ∀ tid, Eligible s tid → ∃ least, Least s count least ∧
        canFetch (s.fetchStatus (threadMap count s.activeThreads (count least))) = true := by
      intro tid htid
      obtain ⟨least, hleast⟩ := exists_least htid count
      obtain ⟨last, -, -, hl⟩ := exists_last count hleast.1.1
      refine ⟨least, hleast, ?_⟩
      rw [hlast least last hl]
      exact hlastOfLeast least hleast last hl
    refine ⟨fun hchoice tid htid => ?_, fun choice hchoice => ?_⟩
    · obtain ⟨least, hleast, hcan⟩ := hwinner tid htid
      have hno := hnone hchoice (count least) ((hpq _).mpr ⟨least, hleast.1.1, rfl⟩)
      simp [hno] at hcan
    · obtain ⟨c, hc, hm, hcan, hmin⟩ := hsome choice hchoice
      obtain ⟨t, ht, rfl⟩ := (hpq c).mp hc
      obtain ⟨last, hactive, hcount, hl⟩ := exists_last count ht
      obtain rfl : choice = last := hm.symm.trans (hlast t last hl)
      refine ⟨⟨hactive, hcan⟩, fun other hother => ?_⟩
      obtain ⟨least, hleast, hwins⟩ := hwinner other hother
      rw [hcount]
      exact (hmin _ ((hpq _).mpr ⟨least, hleast.1.1, rfl⟩) hwins).trans (hleast.2 other hother)

end Counts

/-! ## The runs -/

/-- What the history keeps: the priority list has the threads that have not been deactivated since
the last reset, and under round robin no other thread is active. -/
structure Inv (p : Params) (w : World) : Prop where
  active_lt : ∀ tid ∈ w.fetch.activeThreads, tid < p.numThreads
  active_nodup : w.fetch.activeThreads.Nodup
  priority_nodup : w.fetch.priorityList.Nodup
  mem_priority : ∀ tid, tid ∈ w.fetch.priorityList ↔ tid < p.numThreads ∧ tid ∉ w.gone
  not_gone : 1 < p.numThreads → p.fetchPolicy = .RoundRobin →
    ∀ tid ∈ w.fetch.activeThreads, tid ∉ w.gone

section Run

variable {p : Params} {w w' : World}

theorem Inv.reset (h : Inv p w) : Inv p ⟨resetStage p w.fetch, []⟩ where
  active_lt := h.active_lt
  active_nodup := h.active_nodup
  priority_nodup := List.nodup_range
  mem_priority tid := by simp [resetStage]
  not_gone _ _ tid _ := List.not_mem_nil

theorem inv_start (p : Params) : Inv p (World.start p) :=
  Inv.reset (w := ⟨⟨[], [], fun _ => .Idle⟩, List.range p.numThreads⟩)
    ⟨fun _ h => absurd h List.not_mem_nil, List.nodup_nil, List.nodup_nil,
      fun tid => by simp, fun _ _ _ h => absurd h List.not_mem_nil⟩

theorem Inv.roundRobin_eq (h : Inv p w) :
    ∃ list, roundRobin p w.fetch
        = .ok (w.fetch.priorityList.find? fun tid => canFetch (w.fetch.fetchStatus tid),
          { w.fetch with priorityList := list }) ∧ list.Perm w.fetch.priorityList :=
  Policy.roundRobin_eq fun tid htid => ((h.mem_priority tid).mp htid).1.le

/-- A choice only reorders the priority list. -/
theorem Inv.select_frame (h : Inv p w) {iewInfo : ℕ → IewInfo} {choice : Option ℕ} {s : Fetch}
    (hok : getFetchingThread p w.fetch iewInfo = .ok (choice, s)) :
    s.activeThreads = w.fetch.activeThreads ∧ s.priorityList.Perm w.fetch.priorityList := by
  have hsame : ∀ {x : Option ℕ}, Except.ok (x, w.fetch) = Except.ok (ε := PolicyFail) (choice, s) →
      s.activeThreads = w.fetch.activeThreads ∧ s.priorityList.Perm w.fetch.priorityList := by
    intro x heq
    cases heq
    exact ⟨rfl, List.Perm.refl _⟩
  unfold getFetchingThread at hok
  split at hok
  · split at hok
    · obtain ⟨list, heq, hperm⟩ := h.roundRobin_eq
      cases heq.symm.trans hok
      exact ⟨rfl, hperm⟩
    · exact hsame hok
    · exact hsame hok
    · cases hok
  · split at hok
    · exact hsame hok
    · exact hsame hok

/-- **One event keeps the invariant.** -/
theorem Inv.step {e : Event} (h : Inv p w) (hadm : Admissible p w e)
    (hstep : step p w e = .ok w') : Inv p w' := by
  cases e with
  | resetStage =>
    cases hstep
    exact h.reset
  | clearStates tid =>
    cases hstep
    exact ⟨h.active_lt, h.active_nodup, h.priority_nodup, h.mem_priority, h.not_gone⟩
  | activateThread tid =>
    cases hstep
    unfold activateThread
    split_ifs with hactive
    · exact h
    · refine ⟨fun t ht => ?_, ?_, h.priority_nodup, h.mem_priority, fun hn hp t ht => ?_⟩
      · rcases List.mem_append.mp ht with ht | ht
        · exact h.active_lt t ht
        · obtain rfl := List.mem_singleton.mp ht
          exact hadm.1
      · exact List.nodup_append.mpr ⟨h.active_nodup, List.nodup_singleton tid,
          fun t ht u hu => by
            obtain rfl := List.mem_singleton.mp hu
            rintro rfl
            exact hactive ht⟩
      · rcases List.mem_append.mp ht with ht | ht
        · exact h.not_gone hn hp t ht
        · obtain rfl := List.mem_singleton.mp ht
          exact hadm.2 hn hp
  | deactivateThread tid =>
    cases hstep
    refine ⟨fun t ht => h.active_lt t (List.mem_of_mem_erase ht), h.active_nodup.erase tid,
      h.priority_nodup.erase tid, fun t => ?_, fun hn hp t ht => ?_⟩
    · have herase := h.priority_nodup.mem_erase_iff (a := t) (b := tid)
      refine herase.trans ?_
      rw [h.mem_priority, List.mem_cons]
      tauto
    · obtain ⟨hne, hactive⟩ := h.active_nodup.mem_erase_iff.mp ht
      exact List.not_mem_cons_of_ne_of_not_mem hne (h.not_gone hn hp t hactive)
  | updateThreadPriority =>
    cases hstep
    have hperm : (updateThreadPriority w.fetch).activeThreads.Perm w.fetch.activeThreads := by
      unfold updateThreadPriority
      split
      · rename_i high_thread other rest heq
        rw [heq]
        exact List.perm_append_singleton high_thread (other :: rest)
      · exact List.Perm.refl _
    have hlist : (updateThreadPriority w.fetch).priorityList = w.fetch.priorityList := by
      unfold updateThreadPriority
      split <;> rfl
    refine ⟨fun t ht => h.active_lt t (hperm.mem_iff.mp ht), hperm.nodup_iff.mpr h.active_nodup, ?_,
      fun t => ?_, fun hn hp t ht => h.not_gone hn hp t (hperm.mem_iff.mp ht)⟩
    · exact hlist ▸ h.priority_nodup
    · exact hlist ▸ h.mem_priority t
  | setStatus tid status =>
    cases hstep
    exact ⟨h.active_lt, h.active_nodup, h.priority_nodup, h.mem_priority, h.not_gone⟩
  | select iewInfo =>
    obtain ⟨⟨choice, s⟩, hchoice, hok⟩ := bind_eq_ok.mp hstep
    cases hok
    obtain ⟨hactive, hperm⟩ := h.select_frame hchoice
    exact ⟨hactive ▸ h.active_lt, hactive ▸ h.active_nodup, hperm.nodup_iff.mpr h.priority_nodup,
      fun t => hperm.mem_iff.trans (h.mem_priority t), hactive ▸ h.not_gone⟩

/-- **One choice** under round robin. -/
theorem Inv.roundRobin_right (h : Inv p w) (hn : 1 < p.numThreads)
    (hpolicy : p.fetchPolicy = .RoundRobin)
    (hactive : ∀ tid < p.numThreads, tid ∉ w.gone → tid ∈ w.fetch.activeThreads)
    (iewInfo : ℕ → IewInfo) :
    Right p w.fetch iewInfo
      (w.fetch.priorityList.find? fun tid => canFetch (w.fetch.fetchStatus tid)) := by
  cases hfind : w.fetch.priorityList.find? fun tid => canFetch (w.fetch.fetchStatus tid) with
  | none =>
    rintro tid ⟨htid, hcan⟩
    have hlisted := (h.mem_priority tid).mpr ⟨h.active_lt tid htid, h.not_gone hn hpolicy tid htid⟩
    exact List.find?_eq_none.mp hfind tid hlisted hcan
  | some tid =>
    obtain ⟨hlt, hnot⟩ := (h.mem_priority tid).mp (List.mem_of_find?_eq_some hfind)
    have hcan := List.find?_some (p := fun tid => canFetch (w.fetch.fetchStatus tid)) hfind
    refine ⟨⟨hactive tid hlt hnot, hcan⟩, fun count hcount => ?_⟩
    rw [hpolicy] at hcount
    cases hcount

/-- **One choice** by a count. -/
theorem byCount_right {iewInfo : ℕ → IewInfo} {count : ℕ → ℕ}
    (hcount : countOf p.fetchPolicy iewInfo = some count) (hlast : LastOfLeast w.fetch count) :
    Right p w.fetch iewInfo (byCount w.fetch count) := by
  obtain ⟨hnone, hsome⟩ := byCount_right_iff.mpr hlast
  cases hchoice : byCount w.fetch count with
  | none => exact hnone hchoice
  | some tid =>
    have hleast := hsome tid hchoice
    refine ⟨hleast.1, fun count' hcount' => ?_⟩
    obtain rfl := Option.some.inj (hcount.symm.trans hcount')
    exact hleast

/-- **One choice** of a processor with one thread. -/
theorem Inv.single_right (h : Inv p w) (hn : ¬ 1 < p.numThreads) (iewInfo : ℕ → IewInfo) {tid : ℕ}
    {rest : List ℕ} (hactive : w.fetch.activeThreads = tid :: rest) :
    Right p w.fetch iewInfo (if canFetch (w.fetch.fetchStatus tid) then some tid else none) := by
  have hin : tid ∈ w.fetch.activeThreads := hactive ▸ List.mem_cons_self
  have honly : ∀ other, Eligible w.fetch other → other = tid := by
    rintro other ⟨hother, -⟩
    have := h.active_lt other hother
    have := h.active_lt tid hin
    omega
  split_ifs with hcan
  · refine ⟨⟨hin, hcan⟩, fun count _ => ⟨⟨hin, hcan⟩, fun other hother => ?_⟩⟩
    rw [honly other hother]
  · intro other hother
    exact hcan (honly other hother ▸ hother.2)

/-- **The choice of the fetching thread.**  In every history in which the condition holds whenever a
thread is activated or chosen, each choice succeeds and is right. -/
theorem getFetchingThread_right (hp : p.fetchPolicy ≠ .Branch)
    (h : Reached (Admissible p) (step p) (World.start p) w) {iewInfo : ℕ → IewInfo}
    (hadm : Admissible p w (.select iewInfo)) :
    ∃ choice s, getFetchingThread p w.fetch iewInfo = .ok (choice, s) ∧
      Right p w.fetch iewInfo choice := by
  have hinv : Inv p w :=
    h.invariant (fun _ _ _ hinv hadm hstep => Inv.step hinv hadm hstep) (inv_start p)
  unfold getFetchingThread
  split_ifs with hn
  · obtain ⟨hall, hcounts⟩ := hadm hn
    cases hpolicy : p.fetchPolicy with
    | RoundRobin =>
      obtain ⟨list, heq, -⟩ := hinv.roundRobin_eq
      exact ⟨_, _, heq, hinv.roundRobin_right hn hpolicy (hall hpolicy) iewInfo⟩
    | IQCount =>
      have hcount : countOf p.fetchPolicy iewInfo = some fun tid => (iewInfo tid).iqCount := by
        rw [hpolicy, countOf]
      exact ⟨_, _, rfl, byCount_right hcount (hcounts _ hcount)⟩
    | LSQCount =>
      have hcount : countOf p.fetchPolicy iewInfo = some fun tid => (iewInfo tid).ldstqCount := by
        rw [hpolicy, countOf]
      exact ⟨_, _, rfl, byCount_right hcount (hcounts _ hcount)⟩
    | Branch => exact absurd hpolicy hp
  · cases hactive : w.fetch.activeThreads with
    | nil =>
      refine ⟨none, _, rfl, fun tid htid => ?_⟩
      simp [Eligible, hactive] at htid
    | cons tid rest => exact ⟨_, _, rfl, hinv.single_right hn iewInfo hactive⟩

end Run

/-- Two active threads take turns. -/
theorem getFetchingThread_right_two :
    ∃ choice s, getFetchingThread ⟨2, .RoundRobin⟩
        (activateThread (activateThread (World.start ⟨2, .RoundRobin⟩).fetch 0) 1) (fun _ => ⟨0, 0⟩)
          = .ok (choice, s) ∧
      Right ⟨2, .RoundRobin⟩
        (activateThread (activateThread (World.start ⟨2, .RoundRobin⟩).fetch 0) 1) (fun _ => ⟨0, 0⟩)
          choice := by
  refine getFetchingThread_right (w := ⟨_, []⟩) (by decide)
    ⟨[.activateThread 0, .activateThread 1], ?_, rfl⟩ fun _ => ⟨fun _ tid htid _ => ?_, ?_⟩
  · refine ⟨⟨by decide, fun _ _ => List.not_mem_nil⟩, fun w hw => ?_⟩
    cases hw
    exact ⟨⟨by decide, fun _ _ => List.not_mem_nil⟩, fun _ _ => trivial⟩
  · have hcases : tid = 0 ∨ tid = 1 := by
      change tid < 2 at htid
      omega
    rcases hcases with rfl | rfl <;> decide
  · intro count hcount
    cases hcount

/-- **A thread starves**: two active threads have the same count, and only the first can fetch. -/
theorem tie_starves :
    ∃ w s, run (step ⟨2, .IQCount⟩) (World.start ⟨2, .IQCount⟩)
        [.activateThread 0, .activateThread 1, .setStatus 1 .Blocked] = .ok w ∧
      getFetchingThread ⟨2, .IQCount⟩ w.fetch (fun _ => ⟨0, 0⟩) = .ok (none, s) ∧
      Eligible w.fetch 0 :=
  ⟨_, _, rfl, rfl, by decide, by decide⟩

end Gem5.Frontend.Policy
