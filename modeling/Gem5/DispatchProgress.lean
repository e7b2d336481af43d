/-
# What rename counts in progress is what is in flight

An instruction that rename has sent is in a slot on its way to IEW, in one of the two queues of its
thread, or in a report on its way back.  `unreported` puts these together; the counters of rename
are the numbers of instructions, loads and stores in it.

The two stages do not classify an instruction alike.  Rename and dispatch ask for one kind after the
other, but in a different order, and the places that drop an instruction count it once as a load and
once as a store.  The counters are right as long as the instructions on which the classifications
differ do not come to such a place.
-/
import Gem5.DispatchStage

open Runs

namespace Gem5.Pipeline

variable {n : ℕ}

/-! ## Classification -/

namespace DynInst

/-- A store or an atomic operation, as rename counts it. -/
def countsAsStore (i : DynInst n) : Bool := i.isAtomic || i.isStore

/-- A load, as rename counts it. -/
def countsAsLoad (i : DynInst n) : Bool := !i.countsAsStore && i.isLoad

/-- Dropping the instruction reports it as rename has counted it. -/
def Droppable (i : DynInst n) : Prop := i.isLoad = true → i.isStore = false ∧ i.isAtomic = false

/-- Dispatching the instruction reports it as rename has counted it. -/
def Dispatchable (i : DynInst n) : Prop :=
  i.isLoad = true → i.isStore = true → i.isAtomic = true

instance (i : DynInst n) : Decidable i.Droppable :=
  inferInstanceAs (Decidable (_ → _))

instance (i : DynInst n) : Decidable i.Dispatchable :=
  inferInstanceAs (Decidable (_ → _))

end DynInst

/-- The counters of rename when exactly the instructions of `l` are in flight. -/
def InProgress.of (l : List (DynInst n)) : InProgress where
  instsInProgress := l.length
  loadsInProgress := l.countP DynInst.countsAsLoad
  storesInProgress := l.countP DynInst.countsAsStore

theorem InProgress.of_perm {l l' : List (DynInst n)} (h : l.Perm l') :
    InProgress.of l = InProgress.of l' := by
  simp only [InProgress.of, h.length_eq, h.countP_eq]

/-! ## Reports -/

namespace DispatchReport

/-- The numbers of the report are those of the instructions it is about. -/
structure Faithful (r : DispatchReport n) : Prop where
  dispatched : r.dispatched = r.processed.length
  toLQ : r.dispatchedToLQ = r.processed.countP DynInst.countsAsLoad
  toSQ : r.dispatchedToSQ = r.processed.countP DynInst.countsAsStore

theorem faithful_empty : (({} : DispatchReport n)).Faithful := ⟨rfl, rfl, rfl⟩

@[simp] theorem processed_drop (r : DispatchReport n) (i : DynInst n) :
    (r.drop i).processed = r.processed ++ [i] := rfl

@[simp] theorem processed_dispatch (r : DispatchReport n) (i : DynInst n) :
    (r.dispatch i).processed = r.processed ++ [i] := by
  rw [dispatch]
  unfold count
  split_ifs <;> rfl

variable {r : DispatchReport n}

theorem Faithful.drop (h : r.Faithful) {i : DynInst n} (hi : i.Droppable) :
    (r.drop i).Faithful := by
  obtain ⟨hd, hl, hs⟩ := h
  constructor
  · simp [DispatchReport.drop, hd]
  · rw [processed_drop, List.countP_append, ← hl]
    cases hload : i.isLoad with
    | false => simp [DispatchReport.drop, DynInst.countsAsLoad, hload]
    | true =>
      obtain ⟨hst, hat⟩ := hi hload
      simp [DispatchReport.drop, DynInst.countsAsLoad, DynInst.countsAsStore, hload, hst, hat]
  · rw [processed_drop, List.countP_append, ← hs]
    cases hst : i.isStore <;> cases hat : i.isAtomic <;>
      simp [DispatchReport.drop, DynInst.countsAsStore, hst, hat]

theorem Faithful.dispatch (h : r.Faithful) {i : DynInst n} (hi : i.Dispatchable) :
    (r.dispatch i).Faithful := by
  obtain ⟨hd, hl, hs⟩ := h
  constructor
  · rw [processed_dispatch, List.length_append, ← hd, DispatchReport.dispatch]
    unfold count
    split_ifs <;> rfl
  · rw [processed_dispatch, List.countP_append, ← hl]
    cases hat : i.isAtomic <;> cases hload : i.isLoad <;> cases hst : i.isStore <;>
      simp_all [DispatchReport.dispatch, count, DynInst.countsAsLoad, DynInst.countsAsStore,
        DynInst.Dispatchable]
  · rw [processed_dispatch, List.countP_append, ← hs]
    cases hat : i.isAtomic <;> cases hload : i.isLoad <;> cases hst : i.isStore <;>
      simp_all [DispatchReport.dispatch, count, DynInst.countsAsStore, DynInst.Dispatchable]

/-- Dropping a list of instructions. -/
theorem processed_foldl_drop (l : List (DynInst n)) (r : DispatchReport n) :
    (l.foldl DispatchReport.drop r).processed = r.processed ++ l := by
  induction l generalizing r with
  | nil => simp
  | cons i l ih => rw [List.foldl_cons, ih, processed_drop, List.append_assoc, List.cons_append,
      List.nil_append]

theorem Faithful.foldl_drop {l : List (DynInst n)} (hl : ∀ i ∈ l, i.Droppable) (h : r.Faithful) :
    (l.foldl DispatchReport.drop r).Faithful := by
  induction l generalizing r with
  | nil => exact h
  | cons i l ih =>
    exact ih (fun j hj => hl j (List.mem_cons_of_mem i hj)) (h.drop (hl i List.mem_cons_self))

/-- Two reports that differ at most in the signals. -/
structure SameCounts (r r' : DispatchReport n) : Prop where
  dispatched : r'.dispatched = r.dispatched
  toLQ : r'.dispatchedToLQ = r.dispatchedToLQ
  toSQ : r'.dispatchedToSQ = r.dispatchedToSQ
  processed : r'.processed = r.processed

theorem SameCounts.refl (r : DispatchReport n) : SameCounts r r := ⟨rfl, rfl, rfl, rfl⟩

theorem Faithful.sameCounts {r' : DispatchReport n} (h : r.Faithful) (h' : SameCounts r r') :
    r'.Faithful := by
  obtain ⟨hd, hl, hs, hp⟩ := h'
  exact ⟨by rw [hd, hp, h.dispatched], by rw [hl, hp, h.toLQ], by rw [hs, hp, h.toSQ]⟩

end DispatchReport

/-! ## One thread -/

namespace DispatchThread

open DispatchReport

/-- The instructions of the thread that IEW has still to dispatch. -/
def waiting (th : DispatchThread n) : List (DynInst n) := th.insts ++ th.skidBuffer

/-- From `th` to `th'` no instruction is lost or made up, and the report stays faithful. -/
structure Moves (th th' : DispatchThread n) : Prop where
  held : (th'.waiting ++ th'.toRename.processed).Perm (th.waiting ++ th.toRename.processed)
  faithful : th.toRename.Faithful → th'.toRename.Faithful
  waiting_subset : th'.waiting ⊆ th.waiting
  insts_subset : th'.insts ⊆ th.insts

theorem Moves.refl (th : DispatchThread n) : Moves th th :=
  ⟨.refl _, id, List.Subset.refl _, List.Subset.refl _⟩

variable {th th' : DispatchThread n} {tid : Fin n} {c : DispatchCycle n}

theorem Moves.trans {th'' : DispatchThread n} (h : Moves th th') (h' : Moves th' th'') :
    Moves th th'' :=
  ⟨h'.held.trans h.held, h'.faithful ∘ h.faithful,
    List.Subset.trans h'.waiting_subset h.waiting_subset,
    List.Subset.trans h'.insts_subset h.insts_subset⟩

/-- A change of the status and of the signals moves nothing. -/
theorem Moves.quiet (hi : th'.insts = th.insts) (hs : th'.skidBuffer = th.skidBuffer)
    (hr : SameCounts th.toRename th'.toRename) :
    Moves th th' := by
  have hw : th'.waiting = th.waiting := by rw [waiting, hi, hs, waiting]
  refine ⟨?_, fun h => h.sameCounts hr, ?_, ?_⟩
  · rw [hw, hr.processed]
  · rw [hw]; exact List.Subset.refl _
  · rw [hi]; exact List.Subset.refl _

/-- The assertions of dispatch, as opposed to those on the counters of rename. -/
def OfDispatch : DispatchFail → Prop
  | .skidbufferExceededMaxSize | .skidsEmpty => True
  | _ => False

theorem skidInsert_moves (p : DispatchParams) (th : DispatchThread n) :
    Ends (Moves th) OfDispatch (th.skidInsert p) := by
  rw [skidInsert]
  refine (ends_require trivial).bind fun _ _ => ?_
  · have hw : (th.skidBuffer ++ th.insts).Perm th.waiting := List.perm_append_comm
    exact ⟨hw.append_right _, id, hw.subset, List.nil_subset _⟩

theorem signalBlock_moves (th : DispatchThread n) : Moves th th.signalBlock := by
  unfold signalBlock
  split_ifs
  · exact .quiet rfl rfl ⟨rfl, rfl, rfl, rfl⟩
  · exact .refl th

theorem block_moves (p : DispatchParams) (th : DispatchThread n) :
    Ends (fun th' => Moves th th' ∧ th'.dispatchStatus = .Blocked) OfDispatch (th.block p) := by
  rw [block]
  refine (skidInsert_moves p th.signalBlock).bind fun th' h => ?_
  exact ⟨(th.signalBlock_moves.trans h).trans (.quiet rfl rfl (.refl _)), rfl⟩

theorem unblock_moves (th : DispatchThread n) : Moves th th.unblock := by
  unfold unblock
  split_ifs
  · exact .quiet rfl rfl ⟨rfl, rfl, rfl, rfl⟩
  · exact .refl th

theorem emptyRenameInsts_moves (h : ∀ i ∈ th.insts, i.Droppable) :
    Moves th th.emptyRenameInsts := by
  refine ⟨?_, fun hf => hf.foldl_drop h, ?_, List.nil_subset _⟩
  · show ([] ++ th.skidBuffer ++ (th.insts.foldl DispatchReport.drop th.toRename).processed).Perm _
    rw [processed_foldl_drop, List.perm_iff_count]
    intro i
    simp only [waiting, List.nil_append, List.count_append]
    omega
  · exact List.subset_append_right _ _

theorem squash_moves (h : ∀ i ∈ th.waiting, i.Droppable) :
    Moves th th.squash := by
  have hflush : Moves th
      { th with skidBuffer := [], toRename := th.skidBuffer.foldl DispatchReport.drop th.toRename } := by
    refine ⟨?_, fun hf => hf.foldl_drop fun i hi => h i (List.mem_append_right _ hi), ?_,
      List.Subset.refl _⟩
    · show (th.insts ++ [] ++ (th.skidBuffer.foldl DispatchReport.drop th.toRename).processed).Perm _
      rw [processed_foldl_drop, List.perm_iff_count]
      intro i
      simp only [waiting, List.append_nil, List.count_append]
      omega
    · show th.insts ++ [] ⊆ _
      rw [List.append_nil]
      exact List.subset_append_left _ _
  exact hflush.trans (emptyRenameInsts_moves fun i hi => h i (List.mem_append_left _ hi))

/-- What a cycle may do to a thread without dropping an instruction that rename has counted
differently.  The thread is seen after the instructions of the cycle have arrived. -/
def Balanced (c : DispatchCycle n) (tid : Fin n) (th : DispatchThread n) : Prop :=
  if c.squash tid then ∀ i ∈ th.waiting, i.Droppable
  else if c.robSquashing tid then ∀ i ∈ th.insts, i.Droppable
  else ∀ i ∈ th.waiting, c.isSquashed i = true → i.Droppable

theorem Balanced.moves (h : Balanced c tid th) (hm : Moves th th') : Balanced c tid th' := by
  unfold Balanced at h ⊢
  split_ifs at h ⊢
  · exact fun i hi => h i (hm.waiting_subset hi)
  · exact fun i hi => h i (hm.insts_subset hi)
  · exact fun i hi => h i (hm.waiting_subset hi)

theorem checkStallAndUpdate_moves (p : DispatchParams) (c : DispatchCycle n) (tid : Fin n)
    (th : DispatchThread n) : Ends (Moves th) OfDispatch (th.checkStallAndUpdate p c tid) := by
  unfold checkStallAndUpdate
  split_ifs
  · exact (block_moves p th).mono fun _ h => h.1
  · have hunblocking : Moves th { th with dispatchStatus := .Unblocking } :=
      .quiet rfl rfl (.refl _)
    exact hunblocking.trans (unblock_moves _)
  · exact .quiet rfl rfl (.refl _)
  · exact .refl th

/-- After a squash signal, or while the reorder buffer is squashing, the thread does not
dispatch. -/
theorem checkSignalsAndUpdate_moves (p : DispatchParams) (h : Balanced c tid th) :
    Ends (fun th' => Moves th th' ∧ (c.squash tid = true ∨ c.robSquashing tid = true →
        th'.dispatchStatus = .Squashing ∨ th'.dispatchStatus = .Blocked))
      OfDispatch (th.checkSignalsAndUpdate p c tid) := by
  unfold checkSignalsAndUpdate
  unfold Balanced at h
  split_ifs at h ⊢ with hsq hrob
  · refine ⟨(squash_moves h).trans ?_, fun _ => .inl ?_⟩
    · unfold squashSignalled
      split_ifs
      · exact .quiet rfl rfl ⟨rfl, rfl, rfl, rfl⟩
      · exact .quiet rfl rfl (.refl _)
    · unfold squashSignalled
      split_ifs <;> rfl
  · have hempty : Moves th th.robStillSquashing :=
      (emptyRenameInsts_moves h).trans (.quiet rfl rfl (.refl _))
    have hstall : checkStall c tid = true := by rw [checkStall, hrob, Bool.true_or]
    rw [checkStallAndUpdate, if_pos hstall]
    exact (block_moves p _).mono fun th' h' => ⟨hempty.trans h'.1, fun _ => .inr h'.2⟩
  · refine (checkStallAndUpdate_moves p c tid th).mono fun th' h' => ⟨h', ?_⟩
    rintro (h0 | h0)
    · exact absurd h0 hsq
    · exact absurd h0 hrob

/-- The dispatch loop takes a first part of its queue and reports it. -/
theorem dispatchLoop_spec (tid : Fin n) (w k : ℕ) {l : List (DynInst n)}
    (hl : ∀ i ∈ l, i.Dispatchable ∧ (c.isSquashed i = true → i.Droppable)) (r : DispatchReport n) :
    (r.Faithful → (dispatchLoop c tid w k l r).report.Faithful) ∧
      ∃ taken, l = taken ++ (dispatchLoop c tid w k l r).rest ∧
        (dispatchLoop c tid w k l r).report.processed = r.processed ++ taken := by
  induction w generalizing k l r with
  | zero => exact ⟨id, [], rfl, (List.append_nil _).symm⟩
  | succ w ih =>
    cases l with
    | nil => exact ⟨id, [], rfl, (List.append_nil _).symm⟩
    | cons i l =>
      have hrest := fun j hj => hl j (List.mem_cons_of_mem i hj)
      have hi := hl i List.mem_cons_self
      unfold dispatchLoop
      split_ifs with hsq
      · obtain ⟨hf, taken, heq, hp⟩ := ih (k + 1) hrest (r.drop i)
        refine ⟨fun h => hf (h.drop (hi.2 hsq)), i :: taken, ?_, ?_⟩
        · rw [List.cons_append, ← heq]
        · rw [hp, processed_drop, List.append_assoc, List.singleton_append]
      · exact ⟨id, [], rfl, (List.append_nil _).symm⟩
      · exact ⟨id, [], rfl, (List.append_nil _).symm⟩
      · obtain ⟨hf, taken, heq, hp⟩ := ih (k + 1) hrest (r.dispatch i)
        refine ⟨fun h => hf (h.dispatch hi.1), i :: taken, ?_, ?_⟩
        · rw [List.cons_append, ← heq]
        · rw [hp, processed_dispatch, List.append_assoc, List.singleton_append]

theorem blockAgain_moves (p : DispatchParams) (b : Bool) (th : DispatchThread n) :
    Ends (Moves th) OfDispatch (th.blockAgain p b) := by
  unfold blockAgain
  split_ifs
  · refine (block_moves p th).bind fun th' h => ?_
    exact h.1.trans (.quiet rfl rfl ⟨rfl, rfl, rfl, rfl⟩)
  · exact .refl th

/-- What the loop takes out of its queue goes to the report. -/
theorem loop_moves (p : DispatchParams) (tid : Fin n) (unblocking : Bool)
    (h : ∀ i ∈ th.waiting, i.Dispatchable ∧ (c.isSquashed i = true → i.Droppable)) :
    let out := dispatchLoop c tid p.dispatchWidth 0 (th.toDispatch unblocking) th.toRename
    Moves th ({ th with toRename := out.report }.setToDispatch unblocking out.rest) := by
  intro out
  cases unblocking with
  | false =>
    obtain ⟨hf, taken, heq, hp⟩ := dispatchLoop_spec tid p.dispatchWidth 0
      (fun i hi => h i (List.mem_append_left _ hi)) th.toRename
    have hin : th.insts = taken ++ out.rest := heq
    have hout : out.report.processed = th.toRename.processed ++ taken := hp
    have hsub : out.rest ⊆ th.insts := hin ▸ List.subset_append_right _ _
    refine ⟨?_, hf, ?_, hsub⟩
    · show (out.rest ++ th.skidBuffer ++ out.report.processed).Perm _
      rw [hout, List.perm_iff_count]
      intro i
      simp only [waiting, hin, List.count_append]
      omega
    · exact List.append_subset.mpr ⟨List.subset_append_of_subset_left _ hsub,
        List.subset_append_right _ _⟩
  | true =>
    obtain ⟨hf, taken, heq, hp⟩ := dispatchLoop_spec tid p.dispatchWidth 0
      (fun i hi => h i (List.mem_append_right _ hi)) th.toRename
    have hin : th.skidBuffer = taken ++ out.rest := heq
    have hout : out.report.processed = th.toRename.processed ++ taken := hp
    have hsub : out.rest ⊆ th.skidBuffer := hin ▸ List.subset_append_right _ _
    refine ⟨?_, hf, ?_, List.Subset.refl _⟩
    · show (th.insts ++ out.rest ++ out.report.processed).Perm _
      rw [hout, List.perm_iff_count]
      intro i
      simp only [waiting, hin, List.count_append]
      omega
    · exact List.append_subset.mpr ⟨List.subset_append_left _ _,
        List.subset_append_of_subset_right _ hsub⟩

theorem dispatchInsts_moves (p : DispatchParams)
    (h : ∀ i ∈ th.waiting, i.Dispatchable ∧ (c.isSquashed i = true → i.Droppable)) :
    Ends (Moves th) OfDispatch (th.dispatchInsts p c tid) := by
  unfold dispatchInsts
  have hloop := loop_moves p tid (decide (th.dispatchStatus = .Unblocking)) h
  refine (blockAgain_moves p _ _).bind fun th₁ h₁ => ?_
  refine (blockAgain_moves p _ th₁).bind fun th₂ h₂ => ?_
  have h' := (hloop.trans h₁).trans h₂
  show Moves th _
  split_ifs
  · exact h'.trans (.quiet rfl rfl (.refl _))
  · exact h'

theorem dispatch_moves (p : DispatchParams) (skidsEmpty arrived : Bool)
    (h : th.dispatchStatus = .Squashing ∨ th.dispatchStatus = .Blocked ∨
      ∀ i ∈ th.waiting, i.Dispatchable ∧ (c.isSquashed i = true → i.Droppable)) :
    Ends (Moves th) OfDispatch (th.dispatch p c tid skidsEmpty arrived) := by
  unfold dispatch
  cases hst : th.dispatchStatus with
  | Running => exact dispatchInsts_moves p (by simpa [hst] using h)
  | Idle => exact dispatchInsts_moves p (by simpa [hst] using h)
  | Unblocking =>
    refine (ends_require trivial).bind fun _ _ => ?_
    refine (dispatchInsts_moves p (by simpa [hst] using h)).bind fun th₁ h₁ => ?_
    unfold finishUnblocking
    split_ifs
    · refine (skidInsert_moves p th₁).bind fun th₂ h₂ => ?_
      exact (h₁.trans h₂).trans th₂.unblock_moves
    · exact h₁.trans th₁.unblock_moves
  | Blocked => exact .refl th
  | StartSquash => exact .refl th
  | Squashing => exact .refl th

end DispatchThread

/-! ## The two stages -/

namespace RenameDispatch

open DispatchThread DispatchReport

/-- What rename has sent of a thread and has not been told of: on the way to IEW, waiting there, or
in a report on the way back. -/
def unreported (s : RenameDispatch n) (tid : Fin n) : List (DynInst n) :=
  s.renameQueue.flatten.filter (·.tid = tid) ++ (s.thread tid).waiting ++
    s.reports.flatMap fun r => (r tid).processed

/-- What the counters are about once rename has read the oldest report. -/
def unread (s : RenameDispatch n) (tid : Fin n) : List (DynInst n) :=
  s.renameQueue.flatten.filter (·.tid = tid) ++ (s.thread tid).waiting ++
    s.reports.tail.flatMap fun r => (r tid).processed

/-- The thread as dispatch finds it in a cycle. -/
def arriving (s : RenameDispatch n) (c : DispatchCycle n) : Fin n → DispatchThread n :=
  sortInsts s.thread ((s.renameQueue ++ [c.sent]).headD [])

/-- The condition on a cycle: rename sends no instruction that dispatch classifies differently, and
what is dropped is not both a load and a store or atomic operation. -/
def Balanced (s : RenameDispatch n) (c : DispatchCycle n) : Prop :=
  (∀ i ∈ c.sent, i.Dispatchable) ∧
    ∀ tid ∈ c.activeThreads, DispatchThread.Balanced c tid (s.arriving c tid)

/-- The counters are those of what is in flight, and the reports on the way back are faithful. -/
structure Agrees (s : RenameDispatch n) : Prop where
  counted : ∀ tid, s.inProgress tid = InProgress.of (s.unreported tid)
  faithful : ∀ r ∈ s.reports, ∀ tid, (r tid).Faithful
  delayed : s.reports ≠ []
  queued : ∀ i ∈ s.renameQueue.flatten, i.Dispatchable
  waiting : ∀ tid, ∀ i ∈ (s.thread tid).waiting, i.Dispatchable

theorem foldl_countRenamed (l : List (DynInst n)) (r : InProgress) :
    l.foldl countRenamed r =
      { r with
        loadsInProgress := r.loadsInProgress + l.countP DynInst.countsAsLoad
        storesInProgress := r.storesInProgress + l.countP DynInst.countsAsStore } := by
  induction l generalizing r with
  | nil => simp
  | cons i l ih =>
    rw [List.foldl_cons, ih, List.countP_cons, List.countP_cons]
    unfold countRenamed DynInst.countsAsLoad DynInst.countsAsStore
    cases i.isAtomic <;> cases i.isStore <;> cases i.isLoad <;>
      simp only [InProgress.mk.injEq, Bool.or_true, Bool.or_false, Bool.not_true, Bool.not_false,
        Bool.and_true, Bool.and_false, if_true, if_false, Nat.cast_add, Nat.cast_one,
        Bool.false_eq_true, true_and, Nat.add_zero, and_true] <;> omega

/-- Rename counts what it sends. -/
theorem renameInsts_of (l sent : List (DynInst n)) :
    renameInsts (InProgress.of l) sent = InProgress.of (l ++ sent) := by
  rw [renameInsts, foldl_countRenamed]
  simp only [InProgress.of, List.length_append, List.countP_append, Nat.cast_add]

/-- Rename takes off what a faithful report is about. -/
theorem updateProgress_of {r : DispatchReport n} (hr : r.Faithful) {l rest : List (DynInst n)}
    (h : l.Perm (r.processed ++ rest)) :
    updateProgress (InProgress.of l) r = InProgress.of rest := by
  rw [InProgress.of_perm h]
  simp only [updateProgress, InProgress.of, List.length_append, List.countP_append, Nat.cast_add,
    hr.dispatched, hr.toLQ, hr.toSQ, InProgress.mk.injEq]
  omega

theorem checkProgress_of (l : List (DynInst n)) : checkProgress (InProgress.of l) = .ok () := by
  have hl : (0 : ℤ) ≤ (l.countP DynInst.countsAsLoad : ℕ) := Int.natCast_nonneg _
  have hs : (0 : ℤ) ≤ (l.countP DynInst.countsAsStore : ℕ) := Int.natCast_nonneg _
  have hi : (0 : ℤ) ≤ (l.length : ℕ) := Int.natCast_nonneg _
  simp only [checkProgress, InProgress.of, hl, hs, hi, decide_true]
  rfl

theorem forM_ok {ι : Type} {f : ι → Except DispatchFail Unit} {l : List ι}
    (h : ∀ i ∈ l, f i = .ok ()) : l.forM f = .ok () := by
  induction l with
  | nil => rfl
  | cons i l ih =>
    show f i >>= (fun _ => l.forM f) = _
    rw [h i List.mem_cons_self]
    exact ih fun j hj => h j (List.mem_cons_of_mem i hj)

variable {s : RenameDispatch n} {c : DispatchCycle n}

/-- **Rename's half of a cycle.**  The assertions on the counters hold, and the counters are those
of what is in flight without the report that was read. -/
theorem renameTick_spec (h : Agrees s) (c : DispatchCycle n) :
    ∃ s', s.renameTick c = .ok s' ∧ s'.renameQueue = s.renameQueue ++ [c.sent] ∧
      s'.reports = s.reports ∧ s'.thread = s.thread ∧
      ∀ tid, s'.inProgress tid = InProgress.of (s'.unread tid) := by
  obtain ⟨r, rs, hrs⟩ := List.exists_cons_of_ne_nil h.delayed
  have hupd : ∀ tid, updateProgress
      (renameInsts (s.inProgress tid) (c.sent.filter (·.tid = tid))) (s.fromIEW tid) =
      InProgress.of ((s.renameQueue ++ [c.sent]).flatten.filter (·.tid = tid) ++
        (s.thread tid).waiting ++ rs.flatMap fun r => (r tid).processed) := by
    intro tid
    have hr : s.fromIEW tid = r tid := by rw [fromIEW, hrs]; rfl
    rw [h.counted tid, renameInsts_of, hr]
    refine updateProgress_of (h.faithful r (hrs ▸ List.mem_cons_self) tid) ?_
    rw [List.perm_iff_count]
    intro i
    simp only [unreported, hrs, List.flatMap_cons, List.flatten_append, List.flatten_singleton,
      List.filter_append, List.count_append]
    omega
  have hcheck : (List.finRange n).forM (fun tid => checkProgress (updateProgress
      (renameInsts (s.inProgress tid) (c.sent.filter (·.tid = tid))) (s.fromIEW tid))) =
      .ok () := by
    refine forM_ok fun tid _ => ?_
    rw [hupd tid]
    exact checkProgress_of _
  refine ⟨_, bind_eq_ok.mpr ⟨(), hcheck, rfl⟩, rfl, rfl, rfl, fun tid => ?_⟩
  rw [unread]
  show updateProgress _ _ = InProgress.of (_ ++ _ ++ s.reports.tail.flatMap _)
  rw [hupd tid, hrs]
  rfl

/-- What IEW does for one active thread, seen from the start of the cycle. -/
theorem tickThread_moves (p : DispatchParams) (arrived : Bool)
    {start thread : Fin n → DispatchThread n} (hm : ∀ t, Moves (start t) (thread t)) {tid : Fin n}
    (hb : DispatchThread.Balanced c tid (start tid))
    (hd : ∀ i ∈ (start tid).waiting, i.Dispatchable) :
    Ends (fun thread' => ∀ t, Moves (start t) (thread' t)) OfDispatch
      (tickThread p c arrived thread tid) := by
  unfold tickThread
  have hb' := hb.moves (hm tid)
  refine (checkSignalsAndUpdate_moves p hb').bind fun th₁ h₁ => ?_
  have hto := (hm tid).trans h₁.1
  refine (dispatch_moves p _ arrived ?_).bind fun th₂ h₂ => ?_
  · by_cases hs : c.squash tid = true ∨ c.robSquashing tid = true
    · exact (h₁.2 hs).imp_right .inl
    · refine .inr (.inr fun i hi => ?_)
      rw [not_or] at hs
      rw [DispatchThread.Balanced, if_neg hs.1, if_neg hs.2] at hb
      exact ⟨hd i (hto.waiting_subset hi), hb i (hto.waiting_subset hi)⟩
  · intro t
    by_cases ht : t = tid
    · subst ht
      rw [Function.update_self]
      exact hto.trans h₂
    · rw [Function.update_of_ne ht]
      exact hm t

/-- The instructions at the head of the line join those that wait in IEW. -/
theorem waiting_sortInsts (thread : Fin n → DispatchThread n) (fromRename : List (DynInst n))
    (tid : Fin n) : (sortInsts thread fromRename tid).waiting.Perm
      (fromRename.filter (·.tid = tid) ++ (thread tid).waiting) := by
  rw [List.perm_iff_count]
  intro i
  simp only [DispatchThread.waiting, sortInsts, List.count_append]
  omega

/-- What is in flight after IEW's half of a cycle is what was in flight before it. -/
theorem unreported_iewTick {q : List (DynInst n)} {qs : List (List (DynInst n))}
    (hq : s.renameQueue = q :: qs) {r : Fin n → DispatchReport n}
    {rs : List (Fin n → DispatchReport n)} (hr : s.reports = r :: rs)
    {thread : Fin n → DispatchThread n} {tid : Fin n}
    (hm : Moves (sortInsts s.thread q tid) (thread tid)) :
    (s.unread tid).Perm (qs.flatten.filter (·.tid = tid) ++ (thread tid).waiting ++
      (rs ++ [fun tid => (thread tid).toRename]).flatMap fun r => (r tid).processed) := by
  rw [List.perm_iff_count]
  intro i
  have hheld := hm.held.count_eq i
  have hw := (waiting_sortInsts s.thread q tid).count_eq i
  have hempty : (sortInsts s.thread q tid).toRename = {} := rfl
  simp only [unread, hempty, hq, hr, List.tail_cons, List.flatten_cons, List.filter_append,
    List.flatMap_append, List.flatMap_singleton, List.count_append, List.count_nil,
    Nat.add_zero] at hheld hw ⊢
  omega

/-- **IEW's half of a cycle.** -/
theorem iewTick_agrees (p : DispatchParams) {q : List (DynInst n)} {qs : List (List (DynInst n))}
    (hq : s.renameQueue = q :: qs) (hcount : ∀ tid, s.inProgress tid = InProgress.of (s.unread tid))
    (hfaithful : ∀ r ∈ s.reports, ∀ tid, (r tid).Faithful) (hdelayed : s.reports ≠ [])
    (hsent : ∀ i ∈ s.renameQueue.flatten, i.Dispatchable)
    (hwait : ∀ tid, ∀ i ∈ (s.thread tid).waiting, i.Dispatchable)
    (hb : ∀ tid ∈ c.activeThreads, DispatchThread.Balanced c tid (sortInsts s.thread q tid)) :
    Ends Agrees OfDispatch (s.iewTick p c) := by
  rw [hq, List.flatten_cons] at hsent
  have hd : ∀ tid, ∀ i ∈ (sortInsts s.thread q tid).waiting, i.Dispatchable := by
    intro tid i hi
    rcases List.mem_append.mp ((waiting_sortInsts s.thread q tid).mem_iff.mp hi) with hi | hi
    · exact hsent i (List.mem_append_left _ (List.mem_of_mem_filter hi))
    · exact hwait tid i hi
  unfold iewTick
  rw [hq]
  refine Ends.bind (P := fun thread => ∀ t, Moves (sortInsts s.thread q t) (thread t))
    (Ends.foldlM (fun thread tid htid hm => ?_) fun t => .refl _) fun thread hm => ?_
  · exact tickThread_moves p _ hm (hb tid htid) (hd tid)
  · obtain ⟨r, rs, hr⟩ := List.exists_cons_of_ne_nil hdelayed
    have hnew : (s.reports ++ [fun tid => (thread tid).toRename]).tail =
        rs ++ [fun tid => (thread tid).toRename] := by
      rw [hr]; rfl
    refine ⟨fun tid => ?_, ?_, ?_, ?_, fun tid i hi => ?_⟩
    · show s.inProgress tid = InProgress.of (_ ++ _ ++ (_ : List _).tail.flatMap _)
      rw [hnew, hcount tid]
      exact InProgress.of_perm (unreported_iewTick hq hr (hm tid))
    · intro r' hr' tid
      rw [hnew, List.mem_append, List.mem_singleton] at hr'
      rcases hr' with hr' | rfl
      · exact hfaithful r' (hr ▸ List.mem_cons_of_mem r hr') tid
      · exact (hm tid).faithful faithful_empty
    · rw [hnew]
      exact List.append_ne_nil_of_right_ne_nil _ nofun
    · exact fun i hi => hsent i (List.mem_append_right _ hi)
    · exact hd tid i ((hm tid).waiting_subset hi)

/-- **One cycle keeps the agreement**, and no assertion on the counters fails. -/
theorem cycle_agrees (p : DispatchParams) (h : Agrees s) (hb : Balanced s c) :
    Ends Agrees OfDispatch (s.cycle p c) := by
  obtain ⟨s₁, hs₁, hq, hrep, hth, hcount⟩ := renameTick_spec h c
  obtain ⟨q, qs, hline⟩ : ∃ q qs, s.renameQueue ++ [c.sent] = q :: qs :=
    List.exists_cons_of_ne_nil (List.append_ne_nil_of_right_ne_nil _ nofun)
  show Ends _ _ (s.renameTick c >>= _)
  rw [hs₁]
  refine iewTick_agrees p (hq.trans hline) hcount (hrep ▸ h.faithful) (hrep ▸ h.delayed) ?_
    (hth ▸ h.waiting) ?_
  · intro i hi
    rw [hq, List.flatten_append, List.mem_append, List.flatten_singleton] at hi
    exact hi.elim (h.queued i) (hb.1 i)
  · intro tid htid
    have hbal := hb.2 tid htid
    rw [arriving, hline] at hbal
    rw [hth]
    exact hbal

theorem agrees_initial {p : DispatchParams} (hp : 0 < p.iewToRenameDelay) :
    Agrees (initial p : RenameDispatch n) := by
  have hproc : ∀ (k : ℕ) (tid : Fin n), (List.replicate k (fun _ : Fin n =>
      ({} : DispatchReport n))).flatMap (fun r => (r tid).processed) = [] := by
    intro k tid
    exact List.flatMap_eq_nil_iff.mpr fun r hr => by rw [List.eq_of_mem_replicate hr]
  refine ⟨fun tid => ?_, fun r hr tid => ?_, ?_, ?_, fun _ _ hi => absurd hi List.not_mem_nil⟩
  · rw [unreported, initial]
    simp only [List.flatten_replicate_nil, hproc]
    rfl
  · rw [List.eq_of_mem_replicate hr]
    exact faithful_empty
  · intro h
    rw [initial, List.replicate_eq_nil_iff] at h
    omega
  · simp only [initial, List.flatten_replicate_nil]
    exact fun _ hi => absurd hi List.not_mem_nil

/-- **Rename and dispatch agree on what is in flight.**  In every run whose cycles are balanced the
counters of each thread are the numbers of instructions, loads and stores that rename has sent and
that have not been reported back; they are zero when nothing is in flight; and the assertions on
them do not fail. -/
theorem in_flight_counted {p : DispatchParams} (hp : 0 < p.iewToRenameDelay)
    {cs : List (DispatchCycle n)} (h : Admitted Balanced (cycle p) (initial p) cs) :
    Ends (fun s => ∀ tid, s.inProgress tid = InProgress.of (s.unreported tid) ∧
        (s.unreported tid = [] → s.inProgress tid = ⟨0, 0, 0⟩))
      OfDispatch (run (cycle p) (initial p) cs) := by
  refine (run_ends (fun s c => cycle_agrees p) (agrees_initial hp) h).mono fun s hs tid => ?_
  refine ⟨hs.counted tid, fun hempty => ?_⟩
  rw [hs.counted tid, hempty]
  rfl

instance (c : DispatchCycle n) (tid : Fin n) (th : DispatchThread n) :
    Decidable (DispatchThread.Balanced c tid th) :=
  inferInstanceAs (Decidable (ite _ _ _))

instance (s : RenameDispatch n) (c : DispatchCycle n) : Decidable (Balanced s c) :=
  inferInstanceAs (Decidable (_ ∧ _))

/-- A processor with one thread and one slot in each direction. -/
def oneSlot : DispatchParams where
  dispatchWidth := 1
  renameWidth := 2
  renameToIEWDelay := 1
  iewToRenameDelay := 1

/-- A cycle in which nothing stalls. -/
def sending (sent : List (DynInst 1)) : DispatchCycle 1 where
  activeThreads := .finRange 1
  sent := sent
  squash := fun _ => false
  robSquashing := fun _ => false
  isSquashed := fun _ => false
  stallIqFull := fun _ => false
  iqFull := fun _ _ => false
  lqFull := fun _ _ => false
  sqFull := fun _ _ => false

/-- A cycle in which commit squashes. -/
def squashing : DispatchCycle 1 := { sending [] with squash := fun _ => true }

/-- An atomic operation that is a load as well is dispatched, and of the two plain loads after it
one waits in the skid buffer and is squashed there. -/
theorem in_flight_counted_atomic :
    let cs := [sending [⟨0, 1, true, false, true⟩], sending [⟨0, 2, true, false, false⟩,
      ⟨0, 3, true, false, false⟩], sending [], squashing]
    Ends (fun s => ∀ tid, s.inProgress tid = InProgress.of (s.unreported tid) ∧
        (s.unreported tid = [] → s.inProgress tid = ⟨0, 0, 0⟩))
      OfDispatch (run (cycle oneSlot) (initial oneSlot) cs) ∧
    ∃ s, run (cycle oneSlot) (initial oneSlot) cs = .ok s ∧ s.inProgress 0 = ⟨1, 1, 0⟩ :=
  ⟨in_flight_counted (by decide) (by decide +kernel), by decide +kernel⟩

/-- The atomic operation that is a load as well is counted as a store, and reported as a load and a
store when it is squashed; the assertion on the loads fails.  No instruction set under `arch/` builds
one: the constructors of the atomic accesses clear `IsLoad`. -/
theorem squashed_atomic_load_negative :
    run (cycle oneSlot) (initial oneSlot)
      [sending [⟨0, 1, true, false, true⟩], squashing, sending []] = .error .loadsNegative := by
  rfl

end RenameDispatch

end Gem5.Pipeline
