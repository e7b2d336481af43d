/-
# The order of issue

The ready lists of the instruction queue over whole runs.  Whatever the other stages call,
`listOrder` names each class that has something ready exactly once, the oldest first, and the
assertion of `scheduleReadyInsts` on the entry it visits never fails; in one call no more than
`totalWidth` instructions issue, and those of one class in the order of their sequence numbers.
-/
import Gem5.InstQueue

namespace Gem5.Iq.InstructionQueue

open Runs ReadyLists

variable {threads regs : ℕ} {p : Params threads regs} {w w' : InstructionQueue threads regs}

/-- The ready lists of a queue are ordered. -/
def Sorted (p : Params threads regs) (w : InstructionQueue threads regs) : Prop :=
  Ordered (fun x => (p.code x).opClass) w.ready

/-- The faults that have nothing to do with the ready lists. -/
def OtherFault (e : Fault) : Prop :=
  (∀ f, e ≠ .ready f) ∧ e ≠ .orderMismatch ∧ e ≠ .outOfFuel

theorem sorted_init : Sorted p (init p) := ordered_init

/-! ## Ready instructions -/

/-- The instruction waits in the queue of its class, and the other queues stay. -/
theorem addReady_spec (hw : Sorted p w) (x : InstSeqNum) :
    ∃ w', w.addReady p x = .ok w' ∧ Sorted p w' ∧ w'.ready.readyInsts =
      Function.update w.ready.readyInsts (p.code x).opClass
        ((w.ready.readyInsts (p.code x).opClass).orderedInsert (· ≤ ·) x) := by
  obtain ⟨ready, hadd, hord, hinsts⟩ := Ordered.add hw rfl
  refine ⟨{ w with ready }, bind_eq_ok.mpr ⟨ready, ?_, rfl⟩, hord, hinsts⟩
  rw [hadd]
  rfl

theorem addIfReady_sorted (hw : Sorted p w) (x : InstSeqNum) :
    Ends (Sorted p) OtherFault (w.addIfReady p x) := by
  unfold addIfReady
  split
  · split
    · exact hw
    · obtain ⟨w', h, hw', -⟩ := addReady_spec hw x
      rw [h]
      exact hw'
  · exact hw

theorem offer_sorted (hw : Sorted p w) (x : InstSeqNum) :
    Ends (Sorted p) OtherFault (w.offer p x) := by
  unfold offer
  split
  · exact hw
  · exact addIfReady_sorted hw x

theorem addReadyMemInst_sorted (hw : Sorted p w) (x : InstSeqNum) :
    Ends (Sorted p) OtherFault (w.addReadyMemInst p x) := by
  obtain ⟨w', h, hw', -⟩ := addReady_spec hw x
  rw [addReadyMemInst, h]
  exact hw'

/-! ## Insertion, completion and squash -/

theorem addDependents_ready (x : InstSeqNum) (srcs : List (PhysReg regs × ℕ)) :
    (srcs.foldl (addDependent p x) w).ready = w.ready := by
  induction srcs generalizing w with
  | nil => rfl
  | cons src srcs ih =>
    rw [List.foldl_cons, ih]
    unfold addDependent
    split_ifs <;> rfl

theorem addToProducers_sorted (hw : Sorted p w) (x : InstSeqNum) :
    Ends (Sorted p) OtherFault (w.addToProducers p x) := by
  refine Ends.foldlM (fun v dest _ hv => ?_) hw
  unfold addProducer
  split_ifs
  · exact hv
  · exact hv
  · exact ⟨nofun, nofun, nofun⟩

theorem enter_sorted (hw : Sorted p w) (x : InstSeqNum) (readySrc : ℕ → Bool) :
    Ends (Sorted p) OtherFault (w.enter p x readySrc) :=
  (ends_require ⟨nofun, nofun, nofun⟩).bind fun _ _ => hw

theorem insert_sorted (hw : Sorted p w) (x : InstSeqNum) (readySrc : ℕ → Bool) :
    Ends (Sorted p) OtherFault (w.insert p x readySrc) := by
  refine (enter_sorted hw x readySrc).bind fun u hu => ?_
  have hdeps : Sorted p (u.addToDependents p x) := by
    unfold Sorted addToDependents
    rw [addDependents_ready]
    exact hu
  refine (addToProducers_sorted hdeps x).bind fun v hv => ?_
  refine (offer_sorted hv x).bind fun u hu => ?_
  exact hu

theorem insertNonSpec_sorted (hw : Sorted p w) (x : InstSeqNum) (readySrc : ℕ → Bool) :
    Ends (Sorted p) OtherFault (w.insertNonSpec p x readySrc) := by
  refine Ends.bind (P := Sorted p) ?_ fun u hu => ?_
  · have hset : Sorted p { w with nonSpecInsts := Function.update w.nonSpecInsts x true } := hw
    exact enter_sorted hset x readySrc
  · refine (addToProducers_sorted hu x).bind fun v hv => ?_
    exact hv

theorem scheduleNonSpec_sorted (hw : Sorted p w) (x : InstSeqNum) :
    Ends (Sorted p) OtherFault (w.scheduleNonSpec p x) := by
  refine (ends_require ⟨nofun, nofun, nofun⟩).bind fun _ _ => ?_
  refine (offer_sorted (w := w.setStatus x _) hw x).bind fun u hu => ?_
  exact hu

theorem wakeChain_sorted (idx : Fin regs) (l : List InstSeqNum) (hw : Sorted p w) :
    Ends (Sorted p) OtherFault (wakeChain p idx l w) := by
  induction l generalizing w with
  | nil => exact hw
  | cons x l ih =>
    exact (addIfReady_sorted (w := setStatus { w with dependGraph := _ } x _) hw x).bind
      fun u hu => ih hu

theorem wakeDependents_sorted (hw : Sorted p w) (x : InstSeqNum) :
    Ends (Sorted p) OtherFault (w.wakeDependents p x) := by
  refine (ends_require ⟨nofun, nofun, nofun⟩).bind fun _ _ => ?_
  refine Ends.foldlM (fun v dest _ hv => ?_) ?_
  · unfold wakeDest
    split
    · exact hv
    · simp only
      split
      · exact hv
      · refine Ends.bind (P := Sorted p) ?_ fun u hu => ?_
        · exact wakeChain_sorted _ _ hv
        · exact hu
  · split
    · exact hw
    · exact hw

theorem squashInst_sorted (hw : Sorted p w) (x : InstSeqNum) :
    Ends (Sorted p) OtherFault (w.squashInst p x) := by
  have hunregister : Ends (Sorted p) OtherFault (w.unregister p x) := by
    unfold unregister
    simp only
    split_ifs
    · refine Ends.foldlM (fun v src _ hv => ?_) hw
      unfold removeSource
      split
      · exact hv
      · split
        · exact hv
        · exact ⟨nofun, nofun, nofun⟩
    · exact hw
    · exact (ends_require ⟨nofun, nofun, nofun⟩).bind fun _ _ => hw
    · exact hw
  have hleave : Ends (Sorted p) OtherFault (w.leave p x) := by
    unfold leave
    split
    · refine hunregister.bind fun u hu => ?_
      exact hu
    · exact hw
  refine hleave.bind fun u hu => ?_
  refine Ends.foldlM (fun v dest _ hv => ?_) hu
  unfold clearProducer
  split
  · exact hv
  · exact (ends_require ⟨nofun, nofun, nofun⟩).bind fun _ _ => hv

theorem squashLoop_sorted (tid : Fin threads) (sn : InstSeqNum) (l : List InstSeqNum)
    (hw : Sorted p w) :
    Ends (fun r => Sorted p r.1) OtherFault (squashLoop p tid sn l w) := by
  induction l generalizing w with
  | nil => exact hw
  | cons x l ih =>
    unfold squashLoop
    split_ifs
    · refine (ih hw).bind fun r hr => ?_
      exact hr
    · exact (squashInst_sorted hw x).bind fun u hu => ih hu
    · exact hw

theorem squash_sorted (hw : Sorted p w) (tid : Fin threads) (sn : InstSeqNum) :
    Ends (Sorted p) OtherFault (w.squash p tid sn) := by
  refine (squashLoop_sorted tid sn _ hw).bind fun r hr => ?_
  exact hr

/-! ## One call of `scheduleReadyInsts` -/

/-- The instructions of one class, among some. -/
def ofClass (p : Params threads regs) (c : OpClass) (l : List InstSeqNum) : List InstSeqNum :=
  l.filter fun x => (p.code x).opClass = c

theorem ofClass_self {x : InstSeqNum} : ofClass p (p.code x).opClass [x] = [x] := by
  simp [ofClass]

theorem ofClass_of_ne {x : InstSeqNum} {c : OpClass} (h : (p.code x).opClass ≠ c) :
    ofClass p c [x] = [] := by
  simp [ofClass, h]

/-- What is taken from the ready queues and what stays there is, class by class, part of what was
there, in the same order. -/
def Taken (p : Params threads regs) (w w' : InstructionQueue threads regs)
    (issued : List InstSeqNum) : Prop :=
  ∀ c, (ofClass p c issued ++ w'.ready.readyInsts c).Sublist (w.ready.readyInsts c)

theorem sendToExecute_ready (x : InstSeqNum) (idx : FUAnswer) :
    (w.sendToExecute x idx).ready = w.ready := by
  unfold sendToExecute
  split <;> rfl

theorem markIssued_ready (x : InstSeqNum) : (w.markIssued p x).ready = w.ready := by
  unfold markIssued
  simp only
  split <;> rfl

/-- The top of the class at a position is taken, by a squash. -/
theorem takeTop_spec (hw : Sorted p w) {i : ℕ} {e : ListOrderEntry}
    (he : w.ready.listOrder[i]? = some e) :
    ∃ ready, (w.ready.takeTop i e.queueType).mapError Fault.ready = .ok ready ∧
      Ordered (fun x => (p.code x).opClass) ready ∧
      ready.readyInsts = Function.update w.ready.readyInsts e.queueType
        (w.ready.readyInsts e.queueType).tail ∧
      ready.work i < w.ready.work i := by
  obtain ⟨ready, htake, hready⟩ := Ordered.takeTop hw he
  refine ⟨ready, ?_, hready⟩
  rw [htake]
  rfl

/-- The instruction that issues is the top of its queue. -/
theorem issue_spec (hw : Sorted p w) {i : ℕ} {e : ListOrderEntry}
    (he : w.ready.listOrder[i]? = some e) (x : InstSeqNum) (idx : FUAnswer) :
    ∃ w', w.issue p i e.queueType x idx = .ok w' ∧ Sorted p w' ∧
      w'.ready.readyInsts = Function.update w.ready.readyInsts e.queueType
        (w.ready.readyInsts e.queueType).tail ∧
      w'.ready.work i < w.ready.work i := by
  have hsent : Sorted p (w.sendToExecute x idx) := by
    unfold Sorted
    rw [sendToExecute_ready]
    exact hw
  rw [← sendToExecute_ready x idx] at he
  obtain ⟨ready, htake, hord, hinsts, hwork⟩ := takeTop_spec hsent he
  rw [sendToExecute_ready] at hinsts hwork
  refine ⟨_, bind_eq_ok.mpr ⟨ready, htake, rfl⟩, ?_, ?_, ?_⟩
  · unfold Sorted
    rw [markIssued_ready]
    exact hord
  · rw [markIssued_ready]
    exact hinsts
  · rw [markIssued_ready]
    exact hwork

/-- The top of a class is taken: to issue it, or because it is squashed. -/
theorem Taken.step (hw : Sorted p w) {e : ListOrderEntry} (he : e ∈ w.ready.listOrder)
    (hinsts : w'.ready.readyInsts = Function.update w.ready.readyInsts e.queueType
      (w.ready.readyInsts e.queueType).tail) :
    Taken p w w' [e.oldestInst] := by
  intro c
  obtain ⟨l, hl⟩ := List.head?_eq_some_iff.mp (hw.tops e he)
  have hclass : (p.code e.oldestInst).opClass = e.queueType :=
    hw.queued _ _ (List.mem_of_mem_head? (hw.tops e he))
  rw [hinsts]
  rcases eq_or_ne c e.queueType with rfl | hc
  · rw [← hclass, ofClass_self, hclass, Function.update_self, hl, List.tail_cons]
    exact .refl _
  · rw [ofClass_of_ne (hclass ▸ hc.symm), Function.update_of_ne hc]
    exact .refl _

theorem Taken.mono {l m : List InstSeqNum} (h : Taken p w w' l) (hm : m.Sublist l) :
    Taken p w w' m :=
  fun c => ((hm.filter _).append_right _).trans (h c)

theorem Taken.trans {u : InstructionQueue threads regs} {l m : List InstSeqNum}
    (h : Taken p w u l) (h' : Taken p u w' m) : Taken p w w' (l ++ m) := fun c => by
  rw [ofClass, List.filter_append, List.append_assoc]
  exact ((h' c).append_left _).trans (h c)

/-- **The loop of `scheduleReadyInsts`.**  It ends without a fault, keeps the lists ordered, issues
no more than it may, and takes the instructions of each class in the order of their queue. -/
theorem scheduleLoop_spec (fu : ℕ → FUAnswer) {fuel i : ℕ} (visit : ℕ)
    (issued : List InstSeqNum) (hw : Sorted p w) (hfuel : w.ready.work i < fuel) :
    ∃ w' more, scheduleLoop p fu fuel visit i issued w = .ok (w', issued ++ more) ∧
      Sorted p w' ∧ issued.length + more.length ≤ max issued.length p.totalWidth ∧
      Taken p w w' more := by
  induction fuel generalizing visit i issued w with
  | zero => exact absurd hfuel (Nat.not_lt_zero _)
  | succ fuel ih =>
    have hstop : Taken p w w [] := fun c => .refl _
    unfold scheduleLoop
    split
    next hwidth =>
      split
      next => exact ⟨w, [], by rw [List.append_nil], hw, le_max_left _ _, hstop⟩
      next e he =>
        have hmem : e ∈ w.ready.listOrder := List.mem_of_getElem? he
        have htop : (w.ready.top e.queueType).mapError Fault.ready = .ok e.oldestInst := by
          rw [top_eq (hw.tops e hmem)]
          rfl
        have hrequire : require Fault.orderMismatch (e.oldestInst = e.oldestInst) = .ok () :=
          require_ok (decide_eq_true rfl)
        by_cases hsquashed : (w.status e.oldestInst).squashed = true
        · -- a squashed instruction is dropped
          obtain ⟨ready, htake, hord, hinsts, hwork⟩ := takeTop_spec hw he
          obtain ⟨w', more, hrun, hw', hlen, htaken⟩ :=
            ih (w := { w with ready }) (i := i) (visit + 1) issued hord
              (hwork.trans_le (Nat.le_of_lt_succ hfuel))
          refine ⟨w', more, bind_eq_ok.mpr ⟨_, htop, bind_eq_ok.mpr ⟨_, hrequire, ?_⟩⟩,
            hw', hlen, ?_⟩
          · rw [if_pos hsquashed]
            exact bind_eq_ok.mpr ⟨ready, htake, hrun⟩
          · exact ((Taken.step hw hmem hinsts).mono (List.nil_sublist _)).trans htaken
        · let idx := if e.queueType = No_OpClass then FUAnswer.NoCapableFU else fu visit
          by_cases hidx : idx = .NoFreeFU
          · -- every unit is busy: the next class is visited
            have hwork := work_succ he
            obtain ⟨w', more, hrun, hw', hlen, htaken⟩ :=
              ih (visit + 1) issued hw (i := i + 1) (by omega)
            refine ⟨w', more, bind_eq_ok.mpr ⟨_, htop, bind_eq_ok.mpr ⟨_, hrequire, ?_⟩⟩,
              hw', hlen, htaken⟩
            rw [if_neg hsquashed]
            exact (if_pos hidx).trans hrun
          · obtain ⟨u, hissue, hu, hinsts, hwork⟩ := issue_spec hw he e.oldestInst idx
            obtain ⟨w', more, hrun, hw', hlen, htaken⟩ :=
              ih (visit + 1) (issued ++ [e.oldestInst]) hu (i := i) (by omega)
            refine ⟨w', e.oldestInst :: more, bind_eq_ok.mpr ⟨_, htop,
              bind_eq_ok.mpr ⟨_, hrequire, ?_⟩⟩, hw', ?_, ?_⟩
            · rw [if_neg hsquashed]
              refine (if_neg hidx).trans (bind_eq_ok.mpr ⟨u, hissue, ?_⟩)
              rw [hrun, List.append_assoc, List.singleton_append]
            · rw [List.length_append, List.length_singleton] at hlen
              rw [List.length_cons]
              omega
            · exact (Taken.step hw hmem hinsts).trans htaken
    next => exact ⟨w, [], by rw [List.append_nil], hw, le_max_left _ _, hstop⟩

/-- Memory instructions that were put off join the queues of their classes. -/
theorem addReadyMemInsts_spec (l : List InstSeqNum) (hw : Sorted p w) :
    ∃ w', l.foldlM (addReadyMemInst p) w = .ok w' ∧ Sorted p w' ∧
      ∀ c, (w'.ready.readyInsts c).Perm (w.ready.readyInsts c ++ ofClass p c l) := by
  induction l generalizing w with
  | nil => exact ⟨w, rfl, hw, fun c => by rw [ofClass, List.filter_nil, List.append_nil]⟩
  | cons x l ih =>
    obtain ⟨u, hadd, hu, hinsts⟩ := addReady_spec hw x
    obtain ⟨w', hrun, hw', hperm⟩ := ih hu
    refine ⟨w', ?_, hw', fun c => (hperm c).trans ?_⟩
    · rw [List.foldlM_cons]
      exact bind_eq_ok.mpr ⟨u, hadd, hrun⟩
    · have hcons : ofClass p c (x :: l) = ofClass p c [x] ++ ofClass p c l :=
        List.filter_append [x] l
      rw [hcons, hinsts, ← List.append_assoc]
      refine List.Perm.append_right _ ?_
      rcases eq_or_ne (p.code x).opClass c with rfl | hc
      · rw [ofClass_self, Function.update_self]
        exact (List.perm_orderedInsert _ _ _).trans (List.perm_append_singleton _ _).symm
      · rw [ofClass_of_ne hc, List.append_nil, Function.update_of_ne hc.symm]

/-- No instruction is ready twice, or ready while it is put off. -/
def Once (p : Params threads regs) (w : InstructionQueue threads regs) : Prop :=
  ∀ c, (w.ready.readyInsts c ++ ofClass p c w.memInstsToExecute).Nodup

/-- One call of `scheduleReadyInsts`. -/
theorem scheduleReadyInsts_spec (hw : Sorted p w) (fu : ℕ → FUAnswer) :
    ∃ w' issued, w.scheduleReadyInsts p fu = .ok (w', issued) ∧ Sorted p w' ∧
      issued.length ≤ p.totalWidth ∧ (∀ c, (ofClass p c issued).Pairwise (· ≤ ·)) ∧
      (Once p w → ∀ c, (ofClass p c issued).Pairwise (· < ·)) := by
  obtain ⟨u, hadd, hu, hperm⟩ := addReadyMemInsts_spec w.memInstsToExecute
    (w := { w with
      deferredMemInsts := w.deferredMemInsts.filter fun x =>
        !((w.status x).translationCompleted || (w.status x).squashed)
      retryMemInsts := [] }) hw
  obtain ⟨w', issued, hrun, hw', hlen, htaken⟩ :=
    scheduleLoop_spec fu 0 [] hu (Nat.lt_succ_self (u.ready.work 0))
  have hsub : ∀ c, (ofClass p c issued).Sublist (u.ready.readyInsts c) := fun c =>
    (List.sublist_append_left _ _).trans (htaken c)
  refine ⟨w', issued, bind_eq_ok.mpr ⟨u, hadd, hrun⟩, hw', ?_, fun c => ?_, fun honce c => ?_⟩
  · rwa [List.length_nil, Nat.zero_add, Nat.zero_max] at hlen
  · exact (hu.queues c).sublist (hsub c)
  · have hnodup : (u.ready.readyInsts c).Nodup := (hperm c).nodup_iff.mpr (honce c)
    have hstrict := (hu.queues c).and hnodup
    exact (hstrict.imp fun h => lt_of_le_of_ne h.1 h.2).sublist (hsub c)

/-! ## Whole runs -/

theorem step_sorted (hw : Sorted p w) (op : Op threads regs) :
    Ends (Sorted p) OtherFault (step p w op) := by
  cases op with
  | insert x readySrc => exact insert_sorted hw x readySrc
  | insertNonSpec x readySrc => exact insertNonSpec_sorted hw x readySrc
  | addIfReady x => exact addIfReady_sorted hw x
  | addReadyMemInst x => exact addReadyMemInst_sorted hw x
  | scheduleReadyInsts fu =>
    obtain ⟨w', issued, h, hw', -⟩ := scheduleReadyInsts_spec hw fu
    simp only [step, h]
    exact hw'
  | scheduleNonSpec x => exact scheduleNonSpec_sorted hw x
  | wakeDependents x => exact wakeDependents_sorted hw x
  | deferMemInst x => exact hw
  | blockMemInst x => exact hw
  | rescheduleMemInst x => exact hw
  | holdMemInst x => exact hw
  | cacheUnblocked => exact hw
  | commit x tid => exact hw
  | squash tid sn => exact squash_sorted hw tid sn
  | processFUCompletion x => exact hw
  | getInstToExecute => exact (ends_require ⟨nofun, nofun, nofun⟩).bind fun _ _ => hw
  | raiseFlag x flag => exact hw
  | pinReg idx n => exact hw

/-- **The order list over whole runs.**  Whatever is called in whatever order, `listOrder` is
strictly sorted, holds each class once if `queueOnList` is set and else not at all, and records the
top of each class, so that `scheduleReadyInsts` never fails.  A call issues at most `totalWidth`
instructions, those of a class in the order of their sequence numbers, and strictly so unless an
instruction was made ready twice. -/
theorem listOrder_sound (ops : List (Op threads regs)) :
    Ends (fun w =>
      w.ready.listOrder.Pairwise (·.oldestInst < ·.oldestInst) ∧
      (∀ c, (w.ready.listOrder.map (·.queueType)).count c =
        if w.ready.queueOnList c then 1 else 0) ∧
      (∀ e ∈ w.ready.listOrder, (w.ready.readyInsts e.queueType).head? = some e.oldestInst) ∧
      ∀ fu, ∃ w' issued, w.scheduleReadyInsts p fu = .ok (w', issued) ∧
        issued.length ≤ p.totalWidth ∧ (∀ c, (ofClass p c issued).Pairwise (· ≤ ·)) ∧
        (Once p w → ∀ c, (ofClass p c issued).Pairwise (· < ·)))
      OtherFault (run (step p) (init p) ops) := by
  have hadm : Admitted (fun _ _ => True) (step p) (init p) ops :=
    admitted_of_forall fun _ _ _ => trivial
  have hrun : Ends (Sorted p) OtherFault (run (step p) (init p) ops) :=
    run_ends (fun w op hw _ => step_sorted hw op) sorted_init hadm
  refine hrun.mono fun w hw => ⟨hw.sorted, hw.count_queueType, hw.tops, fun fu => ?_⟩
  obtain ⟨w', issued, h, -, hissued⟩ := scheduleReadyInsts_spec hw fu
  exact ⟨w', issued, h, hissued⟩

end Gem5.Iq.InstructionQueue
