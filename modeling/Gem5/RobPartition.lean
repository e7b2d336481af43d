/-
# When the SMT limits of the reorder buffer are safe

The counters of the buffer agree in every reachable state
(`Consistent`), for every policy.  The shared capacity is a different matter:
`Dynamic` gives each thread the whole buffer, `Threshold` gives each thread a
fixed amount that need not fit, and `resetEntries` changes the limits under
threads that already hold more.  `insertInst_safe_iff_covered` says exactly
which states are safe.
-/
import Gem5.Counting
import Gem5.Rob

namespace Gem5.Rob

open Runs

variable {n : ℕ} {p : Params}

/-! ## Sizes -/

/-- `numInstsInROB`, `threadEntries` and the lists count the same instructions. -/
structure Consistent (s : ROB n) : Prop where
  total : s.numInstsInROB = ∑ tid, s.threadEntries tid
  length : ∀ tid, s.threadEntries tid = (s.instList tid).length

/-- The step changed no size and no limit. -/
structure SameSizes (s s' : ROB n) : Prop where
  total : s'.numInstsInROB = s.numInstsInROB
  entries : s'.threadEntries = s.threadEntries
  limits : s'.maxEntries = s.maxEntries
  length : ∀ tid, (s'.instList tid).length = (s.instList tid).length

variable {s s' : ROB n} {list : List RobInst} {tid : Fin n} {a : Action n}

theorem Consistent.of_sameSizes (h : Consistent s) (hs : SameSizes s s') :
    Consistent s' := by
  refine ⟨?_, fun tid => ?_⟩
  · rw [hs.total, hs.entries, h.total]
  · rw [hs.entries, hs.length, h.length]

/-- Replacing one thread's list by one of the same length changes no size. -/
theorem length_update_of_eq {f : Fin n → List RobInst} (h : list.length = (f tid).length)
    (t : Fin n) :
    (Function.update f tid list t).length = (f t).length := by
  by_cases ht : t = tid
  · rw [ht, Function.update_self, h]
  · rw [Function.update_of_ne ht]

theorem sameSizes_markCompleted (s : ROB n) (tid : Fin n) (seq : InstSeqNum) :
    SameSizes s (markCompleted s tid seq) :=
  ⟨rfl, rfl, rfl, length_update_of_eq (List.length_map _)⟩

/-- The squash walk marks instructions in place. -/
theorem length_squashLoop {q : InstSeqNum} {fuel i : ℕ} {r : List RobInst × SquashIt × Bool}
    (h : squashLoop q fuel list i = .ok r) :
    r.1.length = list.length := by
  induction fuel generalizing list i with
  | zero =>
    rw [squashLoop, Except.ok.injEq] at h
    rw [← h]
  | succ fuel ih =>
    rw [squashLoop] at h
    cases hi : list[i]? with
    | none => rw [hi] at h; cases h
    | some inst =>
      rw [hi] at h
      simp only at h
      split_ifs at h with hgt
      · cases i with
        | zero =>
          simp only [Except.ok.injEq] at h
          rw [← h, List.length_set]
        | succ i =>
          simp only at h
          rw [ih h, List.length_set]
      · rw [Except.ok.injEq] at h
        rw [← h]

theorem sameSizes_finishSquash {it : SquashIt} {atFront : Bool}
    (hlen : list.length = (s.instList tid).length) (h : finishSquash s tid list it atFront = .ok s')
    :
    SameSizes s s' := by
  unfold finishSquash at h
  simp only at h
  split at h
  · cases h
    exact ⟨rfl, rfl, rfl, length_update_of_eq hlen⟩
  · split at h
    · split at h
      · cases h
      · split at h <;> cases h <;> exact ⟨rfl, rfl, rfl, length_update_of_eq hlen⟩
    · cases h

theorem sameSizes_doSquash {exiting : Bool} (h : doSquash p s tid exiting = .ok s') :
    SameSizes s s' := by
  unfold doSquash at h
  split at h
  · cases h
  · cases h
  · split at h
    · cases h
    · split at h
      · cases h
        exact ⟨rfl, rfl, rfl, fun _ => rfl⟩
      · split at h
        · cases h
        · next hloop => exact sameSizes_finishSquash (length_squashLoop hloop) h

theorem sameSizes_squash {q : InstSeqNum} {exiting : Bool} (h : squash p s q tid exiting = .ok s') :
    SameSizes s s' := by
  unfold squash at h
  by_cases hempty : isEmpty s tid = true
  · rw [if_pos hempty] at h
    cases h
    exact ⟨rfl, rfl, rfl, fun _ => rfl⟩
  · rw [if_neg hempty] at h
    by_cases hlist : (s.instList tid).isEmpty = true
    · rw [if_pos hlist] at h
      cases h
      exact ⟨rfl, rfl, rfl, fun _ => rfl⟩
    · rw [if_neg hlist] at h
      obtain ⟨h1, h2, h3, h4⟩ := sameSizes_doSquash h
      exact ⟨h1, h2, h3, h4⟩

/-- Re-partitioning changes the limits only. -/
theorem setActiveThreads_sizes (s : ROB n) (active : List (Fin n)) :
    (setActiveThreads p s active).numInstsInROB = s.numInstsInROB ∧
      (setActiveThreads p s active).threadEntries = s.threadEntries ∧
      (setActiveThreads p s active).instList = s.instList := by
  unfold setActiveThreads resetEntries
  split_ifs <;> exact ⟨rfl, rfl, rfl⟩

/-- What a successful insertion does. -/
theorem insertInst_ok {inst : RobInst} (h : insertInst p s tid inst = .ok s') :
    s.numInstsInROB ≠ p.numEntries ∧ s'.numInstsInROB = s.numInstsInROB + 1 ∧
      s'.threadEntries = Function.update s.threadEntries tid (s.threadEntries tid + 1) ∧
      s'.maxEntries = s.maxEntries ∧
      s'.instList = Function.update s.instList tid (s.instList tid ++ [inst]) := by
  unfold insertInst at h
  simp only at h
  split_ifs at h with hfull hhead
  cases h
  exact ⟨hfull, rfl, rfl, rfl, rfl⟩

/-- What a successful retirement does. -/
theorem retireHead_ok (h : retireHead s tid = .ok s') :
    ∃ head rest, s.instList tid = head :: rest ∧ s.numInstsInROB ≠ 0 ∧
      s'.numInstsInROB = s.numInstsInROB - 1 ∧
      s'.threadEntries = Function.update s.threadEntries tid (s.threadEntries tid - 1) ∧
      s'.maxEntries = s.maxEntries ∧
      s'.instList = Function.update s.instList tid rest := by
  unfold retireHead at h
  split_ifs at h with hzero
  split at h
  · cases h
  · next head rest hlist =>
      split_ifs at h with hready
      cases h
      exact ⟨head, rest, hlist, hzero, rfl, rfl, rfl, rfl⟩

/-- The sum of a count bumped at one thread. -/
theorem sum_update (f : Fin n → ℕ) (tid : Fin n) (v : ℕ) :
    (∑ t, Function.update f tid v t) + f tid = (∑ t, f t) + v :=
  Counting.sum_update id f tid v

theorem consistent_insertInst {inst : RobInst} (h : Consistent s)
    (hs : insertInst p s tid inst = .ok s') : Consistent s' := by
  obtain ⟨-, htot, hent, -, hlist⟩ := insertInst_ok hs
  refine ⟨?_, fun t => ?_⟩
  · have hsum := sum_update s.threadEntries tid (s.threadEntries tid + 1)
    rw [htot, hent, h.total]
    omega
  · rw [hent, hlist]
    by_cases ht : t = tid
    · rw [ht, Function.update_self, Function.update_self, List.length_append, h.length]
      rfl
    · rw [Function.update_of_ne ht, Function.update_of_ne ht, h.length]

theorem consistent_retireHead (h : Consistent s) (hs : retireHead s tid = .ok s') :
    Consistent s' := by
  obtain ⟨head, rest, hl, hne, htot, hent, -, hlist⟩ := retireHead_ok hs
  have hpos : s.threadEntries tid = rest.length + 1 := by rw [h.length, hl, List.length_cons]
  refine ⟨?_, fun t => ?_⟩
  · have hsum := sum_update s.threadEntries tid (s.threadEntries tid - 1)
    rw [htot, hent, h.total]
    omega
  · rw [hent, hlist]
    by_cases ht : t = tid
    · rw [ht, Function.update_self, Function.update_self, hpos]
      omega
    · rw [Function.update_of_ne ht, Function.update_of_ne ht, h.length]

/-- **The counters agree** after every action that succeeds. -/
theorem consistent_step (h : Consistent s) (hs : step p s a = .ok s') : Consistent s' := by
  cases a with
  | insertInst tid inst => exact consistent_insertInst h hs
  | retireHead tid => exact consistent_retireHead h hs
  | markCompleted tid seq =>
    cases hs
    exact h.of_sameSizes (sameSizes_markCompleted s tid seq)
  | squash q tid exiting => exact h.of_sameSizes (sameSizes_squash hs)
  | doSquash tid exiting => exact h.of_sameSizes (sameSizes_doSquash hs)
  | setActiveThreads active =>
    cases hs
    obtain ⟨htot, hent, hlist⟩ := setActiveThreads_sizes (p := p) s active
    exact ⟨by rw [htot, hent, h.total], fun tid => by rw [hent, hlist, h.length]⟩

/-! ## Limits -/

/-- The limits are `unsigned` values. -/
def LimitsFit (s : ROB n) : Prop := ∀ tid, s.maxEntries tid < 2 ^ 32

theorem initialLimit_lt (p : Params) (n : ℕ) : initialLimit p n < 2 ^ 32 := by
  have hlt := p.numEntries_lt
  unfold initialLimit
  split
  · exact hlt
  · exact lt_of_le_of_lt (Nat.div_le_self _ _) hlt
  · have hmod := Int.emod_lt_of_pos p.smtROBThreshold (by norm_num : (0 : ℤ) < 2 ^ 32)
    have hnn := Int.emod_nonneg p.smtROBThreshold (by norm_num : (2 : ℤ) ^ 32 ≠ 0)
    omega

theorem resetLimit_lt {active : List (Fin n)} {old : ℕ} (h : old < 2 ^ 32) :
    resetLimit p active old < 2 ^ 32 := by
  have hlt := p.numEntries_lt
  unfold resetLimit
  split_ifs
  · exact lt_of_le_of_lt (Nat.div_le_self _ _) hlt
  · exact hlt
  · exact h

theorem limitsFit_step (h : LimitsFit s) (hs : step p s a = .ok s') : LimitsFit s' := by
  intro tid
  cases a with
  | insertInst t inst => rw [(insertInst_ok hs).2.2.2.1]; exact h tid
  | retireHead t =>
    obtain ⟨_, _, _, _, _, _, hlim, _⟩ := retireHead_ok hs
    rw [hlim]; exact h tid
  | markCompleted t seq => cases hs; exact h tid
  | squash q t exiting => rw [(sameSizes_squash hs).limits]; exact h tid
  | doSquash t exiting => rw [(sameSizes_doSquash hs).limits]; exact h tid
  | setActiveThreads active =>
    cases hs
    unfold setActiveThreads resetEntries
    split_ifs with hpol
    · show (if tid ∈ active then resetLimit p active (s.maxEntries tid)
        else s.maxEntries tid) < 2 ^ 32
      split_ifs
      · exact resetLimit_lt (h tid)
      · exact h tid
    · exact h tid

/-- What holds in every reachable state, whatever the policy. -/
structure Inv (p : Params) (s : ROB n) : Prop where
  consistent : Consistent s
  fit : LimitsFit s
  capacity : s.numInstsInROB ≤ p.numEntries

theorem inv_init (p : Params) (n : ℕ) : Inv p (init p n) where
  consistent := ⟨by simp [init], fun _ => rfl⟩
  fit := fun _ => initialLimit_lt p n
  capacity := Nat.zero_le _

/-- The assertion of `insertInst` stops the program before the capacity is
exceeded, so the capacity bound is preserved by every step that succeeds. -/
theorem inv_step (h : Inv p s) (hs : step p s a = .ok s') :
    Inv p s' := by
  refine ⟨consistent_step h.consistent hs, limitsFit_step h.fit hs, ?_⟩
  have hcap := h.capacity
  cases a with
  | insertInst tid inst =>
    obtain ⟨hne, htot, -⟩ := insertInst_ok hs
    omega
  | retireHead tid =>
    obtain ⟨_, _, _, _, htot, _⟩ := retireHead_ok hs
    omega
  | markCompleted tid seq => cases hs; exact hcap
  | squash q tid exiting => rw [(sameSizes_squash hs).total]; exact hcap
  | doSquash tid exiting => rw [(sameSizes_doSquash hs).total]; exact hcap
  | setActiveThreads active =>
    cases hs
    rw [(setActiveThreads_sizes s active).1]
    exact hcap

/-! ## Covering limits -/

/-- The limits *cover* the buffer: every thread holds at most its limit, and the
limits fit in the buffer together. -/
def Covered (p : Params) (s : ROB n) : Prop :=
  (∀ tid, s.threadEntries tid ≤ s.maxEntries tid) ∧ ∑ tid, s.maxEntries tid ≤ p.numEntries

/-- An admitted insertion under covering limits finds the buffer not full. -/
theorem lt_numEntries_of_covered (hinv : Inv p s) (hcov : Covered p s)
    (hadm : 0 < numFreeEntries s tid) :
    s.threadEntries tid < s.maxEntries tid ∧ s.numInstsInROB < p.numEntries := by
  rw [numFreeEntries, unsignedSub_of_le (hinv.fit tid) (hcov.1 tid)] at hadm
  have hlt : s.threadEntries tid < s.maxEntries tid := by omega
  refine ⟨hlt, ?_⟩
  calc s.numInstsInROB = ∑ t, s.threadEntries t := hinv.consistent.total
    _ < ∑ t, s.maxEntries t :=
        Finset.sum_lt_sum (fun t _ => hcov.1 t) ⟨tid, Finset.mem_univ tid, hlt⟩
    _ ≤ p.numEntries := hcov.2

/-- An action that does not re-partition the buffer. -/
def Action.keepsLimits : Action n → Bool
  | .setActiveThreads _ => false
  | _ => true

/-- Covering limits stay covering until the buffer is re-partitioned. -/
theorem covered_step (hinv : Inv p s) (hcov : Covered p s) (hkeep : a.keepsLimits = true)
    (hadm : admitted s a) (hs : step p s a = .ok s') :
    Covered p s' := by
  have keep : ∀ {t : ROB n}, SameSizes s t → Covered p t := fun hsame =>
    ⟨fun tid => by rw [hsame.entries, hsame.limits]; exact hcov.1 tid,
      by rw [hsame.limits]; exact hcov.2⟩
  cases a with
  | insertInst tid inst =>
    obtain ⟨-, -, hent, hlim, -⟩ := insertInst_ok hs
    have hlt := (lt_numEntries_of_covered hinv hcov hadm).1
    refine ⟨fun t => ?_, by rw [hlim]; exact hcov.2⟩
    rw [hent, hlim]
    by_cases ht : t = tid
    · rw [ht, Function.update_self]; exact hlt
    · rw [Function.update_of_ne ht]; exact hcov.1 t
  | retireHead tid =>
    obtain ⟨_, _, _, _, _, hent, hlim, _⟩ := retireHead_ok hs
    refine ⟨fun t => ?_, by rw [hlim]; exact hcov.2⟩
    rw [hent, hlim]
    by_cases ht : t = tid
    · rw [ht, Function.update_self]; exact le_trans (Nat.sub_le _ _) (hcov.1 tid)
    · rw [Function.update_of_ne ht]; exact hcov.1 t
  | markCompleted tid seq => cases hs; exact keep (sameSizes_markCompleted s tid seq)
  | squash q tid exiting => exact keep (sameSizes_squash hs)
  | doSquash tid exiting => exact keep (sameSizes_doSquash hs)
  | setActiveThreads active => cases hkeep

/-- Outside covering limits some thread is admitted, and stays outside them when
it inserts. -/
theorem exists_admitted_of_not_covered (hinv : Inv p s) (hcov : ¬ Covered p s) :
    ∃ tid, 0 < numFreeEntries s tid ∧
      ∀ inst s', insertInst p s tid inst = .ok s' → ¬ Covered p s' := by
  have hle : ∀ tid, s.threadEntries tid ≤ s.numInstsInROB := fun tid => by
    rw [hinv.consistent.total]
    exact Finset.single_le_sum (fun t _ => Nat.zero_le (s.threadEntries t)) (Finset.mem_univ tid)
  by_cases hover : ∃ tid, s.maxEntries tid < s.threadEntries tid
  · -- a thread above its limit: its free count wraps around, and it stays above
    obtain ⟨tid, htid⟩ := hover
    refine ⟨tid, unsignedSub_pos_of_lt ?_ htid, fun inst s' hs hcov' => ?_⟩
    · have h1 := hle tid
      have h2 := hinv.capacity
      have h3 := p.numEntries_lt
      omega
    · obtain ⟨-, -, hent, hlim, -⟩ := insertInst_ok hs
      have h1 := hcov'.1 tid
      rw [hent, hlim, Function.update_self] at h1
      omega
  · -- the limits are too large together: some thread is below its own
    push Not at hover
    have hsum : p.numEntries < ∑ tid, s.maxEntries tid := by
      by_contra hc
      exact hcov ⟨hover, by omega⟩
    have hlt : ∑ tid, s.threadEntries tid < ∑ tid, s.maxEntries tid := by
      rw [← hinv.consistent.total]
      exact lt_of_le_of_lt hinv.capacity hsum
    obtain ⟨tid, -, htid⟩ := Finset.exists_lt_of_sum_lt hlt
    refine ⟨tid, ?_, fun inst s' hs hcov' => ?_⟩
    · rw [numFreeEntries, unsignedSub_of_le (hinv.fit tid) (hover tid)]
      omega
    · have h2 := hcov'.2
      rw [(insertInst_ok hs).2.2.2.1] at h2
      omega

/-- Insertion fails only at the shared capacity, in a consistent buffer. -/
theorem insertInst_eq_ok (hinv : Inv p s) (tid : Fin n) (inst : RobInst)
    (hne : s.numInstsInROB ≠ p.numEntries) : ∃ s', insertInst p s tid inst = .ok s' := by
  unfold insertInst
  simp only
  rw [if_neg hne]
  split_ifs with hhead
  · -- an empty buffer has empty lists, so the new instruction is at the front
    exfalso
    obtain ⟨hz, hh⟩ := hhead
    have hsum := hinv.consistent.total
    rw [hz] at hsum
    have hzero : s.threadEntries tid = 0 :=
      Finset.sum_eq_zero_iff.mp hsum.symm tid (Finset.mem_univ tid)
    have hnil : s.instList tid = [] := by
      rw [hinv.consistent.length] at hzero
      exact List.length_eq_zero_iff.mp hzero
    rw [hnil] at hh
    exact hh rfl
  · exact ⟨_, rfl⟩

theorem insertInst_full {inst : RobInst} (h : s.numInstsInROB = p.numEntries) :
    insertInst p s tid inst = .error .robFull := by
  unfold insertInst
  rw [if_pos h]

/-- Outside covering limits, admitted insertions alone run into the assertion. -/
theorem exists_overcommit (inst : RobInst) (hinv : Inv p s) (hcov : ¬ Covered p s) :
    ∃ as : List (Action n), (∀ a ∈ as, a.keepsLimits = true) ∧
      Admitted admitted (step p) s as ∧ run (step p) s as = .error .robFull := by
  -- induction on the entries that are still free in the shared buffer
  generalize hk : p.numEntries - s.numInstsInROB = k
  induction k generalizing s with
  | zero =>
    obtain ⟨tid, hadm, -⟩ := exists_admitted_of_not_covered hinv hcov
    have hfull : s.numInstsInROB = p.numEntries := by have := hinv.capacity; omega
    refine ⟨[.insertInst tid inst], by simp [Action.keepsLimits], ⟨hadm, fun _ _ => trivial⟩, ?_⟩
    exact run_cons_error [] (insertInst_full hfull)
  | succ k ih =>
    obtain ⟨tid, hadm, hnext⟩ := exists_admitted_of_not_covered hinv hcov
    obtain ⟨s', hs'⟩ := insertInst_eq_ok hinv tid inst (by omega)
    have hstep : step p s (.insertInst tid inst) = .ok s' := hs'
    have htot := (insertInst_ok hs').2.1
    obtain ⟨as, hkeep, hadm', hrun⟩ :=
      ih (inv_step hinv hstep) (hnext inst s' hs') (by omega)
    refine ⟨.insertInst tid inst :: as, ?_, ⟨hadm, fun t ht => ?_⟩, ?_⟩
    · intro a ha
      rcases List.mem_cons.mp ha with rfl | ha
      · rfl
      · exact hkeep a ha
    · rw [hstep, Except.ok.injEq] at ht
      exact ht ▸ hadm'
    · rw [run_cons_ok as hstep]
      exact hrun

/-- No continuation of `s` that keeps the limits overcommits the buffer. -/
def Safe (p : Params) (s : ROB n) : Prop :=
  ∀ as : List (Action n), (∀ a ∈ as, a.keepsLimits = true) →
    Admitted admitted (step p) s as → run (step p) s as ≠ .error .robFull

/-- The squash walk never stops at the capacity assertion. -/
theorem squashLoop_ne_robFull (q : InstSeqNum) (fuel : ℕ) (list : List RobInst) (i : ℕ) :
    squashLoop q fuel list i ≠ .error .robFull := by
  induction fuel generalizing list i with
  | zero => simp [squashLoop]
  | succ fuel ih =>
    rw [squashLoop]
    cases list[i]? with
    | none => simp
    | some inst =>
      simp only
      split_ifs with hgt
      · cases i with
        | zero => simp
        | succ i => exact ih _ i
      · simp

theorem finishSquash_ne_robFull (s : ROB n) (tid : Fin n) (list : List RobInst)
    (it : SquashIt) (atFront : Bool) : finishSquash s tid list it atFront ≠ .error .robFull := by
  intro h
  unfold finishSquash at h
  simp only at h
  split at h
  · cases h
  · split at h
    · split at h
      · cases h
      · split at h <;> cases h
    · cases h

theorem doSquash_ne_robFull (s : ROB n) (tid : Fin n) (exiting : Bool) :
    doSquash p s tid exiting ≠ .error .robFull := by
  intro h
  unfold doSquash at h
  split at h
  · cases h
  · cases h
  · split at h
    · cases h
    · split at h
      · cases h
      · split at h
        · next e hloop =>
            cases h
            exact squashLoop_ne_robFull _ _ _ _ hloop
        · exact finishSquash_ne_robFull s tid _ _ _ h

theorem squash_ne_robFull (s : ROB n) (q : InstSeqNum) (tid : Fin n) (exiting : Bool) :
    squash p s q tid exiting ≠ .error .robFull := by
  intro h
  unfold squash at h
  by_cases hempty : isEmpty s tid = true
  · rw [if_pos hempty] at h
    cases h
  · rw [if_neg hempty] at h
    by_cases hlist : (s.instList tid).isEmpty = true
    · rw [if_pos hlist] at h
      cases h
    · rw [if_neg hlist] at h
      exact doSquash_ne_robFull _ tid exiting h

/-- Under covering limits no admitted action runs into the capacity assertion. -/
theorem step_ne_robFull (hinv : Inv p s) (hcov : ∀ tid inst, a = .insertInst tid inst → Covered p s)
    (hadm : admitted s a) :
    step p s a ≠ .error .robFull := by
  intro hs
  cases a with
  | insertInst tid inst =>
    have hlt := (lt_numEntries_of_covered hinv (hcov tid inst rfl) hadm).2
    obtain ⟨s', hs'⟩ := insertInst_eq_ok hinv tid inst (by omega)
    rw [step, hs'] at hs
    cases hs
  | retireHead tid =>
    simp only [step, retireHead] at hs
    split at hs
    · cases hs
    · split at hs
      · cases hs
      · split at hs <;> cases hs
  | markCompleted tid seq => cases hs
  | squash q tid exiting => exact squash_ne_robFull s q tid exiting hs
  | doSquash tid exiting => exact doSquash_ne_robFull s tid exiting hs
  | setActiveThreads active => cases hs

theorem safe_of_covered (hinv : Inv p s) (hcov : Covered p s) : Safe p s := by
  intro as hkeep hadm hrun
  obtain ⟨t, a, ⟨hinv', hcov'⟩, ⟨hadm', -⟩, hstep⟩ :=
    run_error (P := fun t => Inv p t ∧ Covered p t)
      (fun t a t' ht ha hs => ⟨inv_step ht.1 hs, covered_step ht.1 ht.2 ha.2 ha.1 hs⟩)
      ⟨hinv, hcov⟩ (hadm.and_forall hkeep) hrun
  exact step_ne_robFull hinv' (fun _ _ _ => hcov') hadm' hstep

/-- **Safety is covering.**  In a state that satisfies the invariant, no
continuation overcommits the buffer exactly when the limits cover it. -/
theorem safe_iff_covered (hinv : Inv p s) : Safe p s ↔ Covered p s := by
  constructor
  · intro hsafe
    by_contra hcov
    obtain ⟨as, hkeep, hadm, hrun⟩ := exists_overcommit ⟨0, false, false⟩ hinv hcov
    exact hsafe as hkeep hadm hrun
  · exact safe_of_covered hinv

/-! ## Which configurations start covered -/

/-- The fresh limits cover the buffer exactly when they fit in it together:
always under `Partitioned`, and under the other two policies only when the
thread count times the fixed limit does. -/
theorem covered_init_iff (p : Params) (n : ℕ) :
    Covered p (init p n) ↔ n * initialLimit p n ≤ p.numEntries := by
  unfold Covered init
  simp

theorem covered_init_of_partitioned (hp : p.robPolicy = .Partitioned) : Covered p (init p n) := by
  rw [covered_init_iff, initialLimit, hp]
  exact Nat.mul_div_le p.numEntries n

/-! ## The main theorem -/

/-- Admission with the limits in order: besides having a free entry, an inserting
thread finds the limits covering the buffer. -/
def admittedCovered (p : Params) (s : ROB n) (a : Action n) : Prop :=
  admitted s a ∧ ∀ tid inst, a = .insertInst tid inst → Covered p s

/-- **The reorder buffer is never overcommitted, exactly while the limits cover
it.**  In every reachable state, under every policy, the total is within
`numEntries` and the three counts agree.  In every run whose insertions are
admitted under covering limits the capacity assertion never fails.  Conversely a
reachable state is safe for every continuation exactly when its limits cover the
buffer: outside, admitted insertions alone reach the failing assertion. -/
theorem insertInst_safe_iff_covered (p : Params) (n : ℕ) :
    (∀ s, Reached admitted (step p) (init p n) s →
      s.numInstsInROB ≤ p.numEntries ∧ s.numInstsInROB = ∑ tid, s.threadEntries tid ∧
        ∑ tid, s.threadEntries tid = ∑ tid, (s.instList tid).length) ∧
    (∀ as, Admitted (admittedCovered p) (step p) (init p n) as →
      run (step p) (init p n) as ≠ .error .robFull) ∧
    (∀ s, Reached admitted (step p) (init p n) s → (Safe p s ↔ Covered p s)) := by
  refine ⟨fun s hs => ?_, fun as hadm hrun => ?_, fun s hs => ?_⟩
  · have hinv : Inv p s := hs.invariant (fun _ _ _ h _ hstep => inv_step h hstep) (inv_init p n)
    exact ⟨hinv.capacity, hinv.consistent.total,
      Finset.sum_congr rfl fun tid _ => hinv.consistent.length tid⟩
  · obtain ⟨t, a, hinv, ha, hstep⟩ :=
      run_error (P := Inv p) (fun _ _ _ h _ hs => inv_step h hs) (inv_init p n) hadm hrun
    exact step_ne_robFull hinv ha.2 ha.1 hstep
  · exact safe_iff_covered
      (hs.invariant (fun _ _ _ h _ hstep => inv_step h hstep) (inv_init p n))

/-- Two threads sharing a one-entry buffer under the `Dynamic` policy. -/
def dynamicPair : Params where
  robPolicy := .Dynamic
  numEntries := 1
  squashWidth := 1
  smtROBThreshold := 0
  numEntries_lt := by norm_num

/-- **The policies overcommit the buffer.**  Under `Dynamic` each of two threads
may hold the whole buffer, so the second admitted insertion fails the assertion. -/
theorem dynamic_overcommits :
    ¬ ∀ (p : Params) (n : ℕ) (as : List (Action n)),
      Admitted admitted (step p) (init p n) as → run (step p) (init p n) as ≠ .error .robFull := by
  intro h
  refine h dynamicPair 2 [.insertInst 0 ⟨1, false, false⟩, .insertInst 1 ⟨2, false, false⟩] ?_ rfl
  refine ⟨by decide, fun s hs => ⟨?_, fun _ _ => trivial⟩⟩
  cases hs
  decide

end Gem5.Rob
