/-
# The slots of the instruction queue

Where the slots of the queue go over whole runs.  A slot is given back in three places: when an
instruction that is no memory access issues, when a memory access completes, and when a squash finds
the instruction in the queue still.  No instruction gets to two of them (`slots_accounted`), so the
free entries and the counts of the threads always add up.

The proof follows one instruction at a time: `View` is what the queue holds about it, and every
operation changes the views of a few instructions only.
-/
import Gem5.IssueOrder

namespace Gem5.Iq

open Runs ReadyLists

/-! ## What the queue holds about one instruction -/

/-- An instruction is in its slot until it is squashed, completes or issues; the flag of an
instruction that never entered means nothing. -/
def occupies {threads regs : ℕ} (i : DynInst threads regs) (s : Status) : Bool :=
  !s.squashedInIQ && !(if i.isMemRef then s.memOpDone else s.issued)

/-- Whether an instruction entered and whether its slot was given back, how often it is in its ready
queue and in the chains, whether it is in `nonSpecInsts`, and its flags. -/
structure View where
  entered : Bool
  freed : Bool
  ready : ℕ
  waiting : ℕ
  nonSpec : Bool
  status : Status

namespace View

variable {threads regs : ℕ} {i : DynInst threads regs} {v : View}

/-- The instruction entered and did not issue. -/
def Waits (v : View) : Prop :=
  v.entered = true ∧ (v.status.issued = true → v.status.squashedInIQ = true)

/-- An instruction that the queue itself makes ready: it is in one place only, and in the chains no
more often than it has registers that are not ready. -/
structure Tracked (i : DynInst threads regs) (v : View) : Prop where
  once : v.ready ≤ 1
  ready : 0 < v.ready → v.Waits
  waiting : 0 < v.waiting → v.Waits ∧ v.ready = 0 ∧ v.status.canIssue = false ∧
    v.status.readyRegs + v.waiting ≤ i.srcRegs.length ∧ v.nonSpec = false
  nonSpec : v.nonSpec = true → v.Waits ∧ v.ready = 0

/-- What holds of every instruction at any time. -/
structure Good (i : DynInst threads regs) (v : View) : Prop where
  freed_iff : v.freed = true ↔ v.entered = true ∧ occupies i v.status = false
  squashed : v.status.squashedInIQ = true → v.status.squashed = true
  done : i.isMemRef = true → v.status.memOpDone = true → v.status.issued = true
  tracked : i.isMemRef = false → v.Tracked i

/-- The flags that the accounting looks at stay. -/
theorem Good.of_flags (h : v.Good i) {u : View} (hentered : u.entered = v.entered)
    (hfreed : u.freed = v.freed) (hissued : u.status.issued = v.status.issued)
    (hdone : u.status.memOpDone = v.status.memOpDone)
    (hiq : u.status.squashedInIQ = v.status.squashedInIQ)
    (hsquashed : v.status.squashed = true → u.status.squashed = true)
    (htracked : i.isMemRef = false → u.Tracked i) : u.Good i where
  freed_iff := by
    simpa only [occupies, hentered, hfreed, hissued, hdone, hiq] using h.freed_iff
  squashed hs := hsquashed (h.squashed (hiq ▸ hs))
  done hm hs := by
    rw [hissued]
    exact h.done hm (hdone ▸ hs)
  tracked := htracked

/-- A flag is raised or lowered that the accounting does not look at. -/
theorem Good.setStatus (h : v.Good i) {s : Status}
    (hissued : s.issued = v.status.issued) (hdone : s.memOpDone = v.status.memOpDone)
    (hiq : s.squashedInIQ = v.status.squashedInIQ)
    (hsquashed : v.status.squashed = true → s.squashed = true)
    (hregs : s.readyRegs = v.status.readyRegs)
    (hissue : s.canIssue = true → v.status.canIssue = true) :
    ({ v with status := s } : View).Good i := by
  refine h.of_flags rfl rfl hissued hdone hiq hsquashed fun hm => ?_
  have hwaits : v.Waits → ({ v with status := s } : View).Waits := fun hw => by
    simpa only [Waits, hissued, hiq] using hw
  obtain ⟨honce, hready, hwaiting, hspec⟩ := h.tracked hm
  refine ⟨honce, fun hr => hwaits (hready hr), fun hw => ?_, fun hn => ?_⟩
  · obtain ⟨hw, hr, hc, hn, hs⟩ := hwaiting hw
    refine ⟨hwaits hw, hr, ?_, ?_, hs⟩
    · cases hcan : s.canIssue with
      | false => rfl
      | true => exact absurd (hissue hcan) (hc ▸ Bool.false_ne_true)
    · simpa only [hregs] using hn
  · exact ⟨hwaits (hspec hn).1, (hspec hn).2⟩

/-- An instruction that waits nowhere any more is made ready. -/
theorem Good.addReady (h : v.Good i) (hidle : i.isMemRef = false → v.Waits ∧ v.ready = 0 ∧
    v.waiting = 0 ∧ v.nonSpec = false) : ({ v with ready := v.ready + 1 } : View).Good i where
  freed_iff := h.freed_iff
  squashed := h.squashed
  done := h.done
  tracked hm := by
    obtain ⟨hw, hr, hwait, hspec⟩ := hidle hm
    refine ⟨by simp [hr], fun _ => hw, fun hpos => ?_, fun hn => ?_⟩
    · exact absurd hwait hpos.ne'
    · exact absurd hn (hspec ▸ Bool.false_ne_true)

/-- An instruction leaves its ready queue, or a chain, or `nonSpecInsts`. -/
theorem Good.remove (h : v.Good i) {ready waiting : ℕ} {nonSpec : Bool} (hready : ready ≤ v.ready)
    (hwaiting : waiting ≤ v.waiting) (hspec : nonSpec = true → v.nonSpec = true) :
    ({ v with ready := ready, waiting := waiting, nonSpec := nonSpec } : View).Good i where
  freed_iff := h.freed_iff
  squashed := h.squashed
  done := h.done
  tracked hm := by
    have ht := h.tracked hm
    refine ⟨hready.trans ht.once, fun hr => ht.ready (hr.trans_le hready), fun hw => ?_,
      fun hn => ?_⟩
    · obtain ⟨hv, hr, hc, hn, hs⟩ := ht.waiting (hw.trans_le hwaiting)
      refine ⟨hv, Nat.le_zero.mp (hr ▸ hready), hc, ?_, ?_⟩
      · exact (Nat.add_le_add_left hwaiting _).trans hn
      · cases nonSpec with
        | false => rfl
        | true => exact absurd (hspec rfl) (hs ▸ Bool.false_ne_true)
    · exact ⟨(ht.nonSpec (hspec hn)).1, Nat.le_zero.mp ((ht.nonSpec (hspec hn)).2 ▸ hready)⟩

/-- An instruction whose chain is taken apart: it has one more register, and it is made ready when
it has them all. -/
theorem Good.wake (h : v.Good i) (hwaiting : 0 < v.waiting) :
    let s := v.status.markSrcRegReady i.srcRegs.length
    let woken : View := { v with waiting := v.waiting - 1, status := s }
    woken.Good i ∧ (i.isMemRef = false → s.canIssue = true →
      woken.Waits ∧ woken.ready = 0 ∧ woken.waiting = 0 ∧ woken.nonSpec = false) := by
  intro s woken
  have hidle : i.isMemRef = false → s.canIssue = true →
      woken.Waits ∧ woken.ready = 0 ∧ woken.waiting = 0 ∧ woken.nonSpec = false := by
    intro hm hcan
    obtain ⟨hv, hr, hc, hn, hs⟩ := (h.tracked hm).waiting hwaiting
    refine ⟨hv, hr, ?_, hs⟩
    have hall : v.status.readyRegs + 1 = i.srcRegs.length := by
      simpa [s, Status.markSrcRegReady, hc] using hcan
    show v.waiting - 1 = 0
    omega
  refine ⟨⟨h.freed_iff, h.squashed, h.done, fun hm => ?_⟩, hidle⟩
  obtain ⟨honce, hready, hwait, hspec⟩ := h.tracked hm
  obtain ⟨hv, hr, hc, hn, hs⟩ := hwait hwaiting
  refine ⟨honce, hready, fun hpos => ⟨hv, hr, ?_, ?_, hs⟩, hspec⟩
  · cases hcan : s.canIssue with
    | false => rfl
    | true => exact absurd (hidle hm hcan).2.2.1 hpos.ne'
  · have hpos' : 0 < v.waiting - 1 := hpos
    show v.status.readyRegs + 1 + (v.waiting - 1) ≤ _
    omega

/-- An instruction that is no memory access issues, and gives its slot back for the first time. -/
theorem Good.issue (h : v.Good i) (hm : i.isMemRef = false) (hready : 0 < v.ready)
    (hsquashed : v.status.squashed = false) :
    v.freed = false ∧ ({ v with
      ready := v.ready - 1, freed := true
      status := { v.status with issued := true, inIQ := false } } : View).Good i := by
  have ht := h.tracked hm
  have hiq : v.status.squashedInIQ = false := by
    cases hs : v.status.squashedInIQ with
    | false => rfl
    | true => exact absurd (h.squashed hs) (hsquashed ▸ Bool.false_ne_true)
  have hissued : v.status.issued = false := by
    cases hs : v.status.issued with
    | false => rfl
    | true => exact absurd ((ht.ready hready).2 hs) (hiq ▸ Bool.false_ne_true)
  have hoccupies : occupies i v.status = true := by simp [occupies, hiq, hm, hissued]
  have hwaiting : v.waiting = 0 := by
    by_contra hne
    exact hready.ne' (ht.waiting (Nat.pos_of_ne_zero hne)).2.1
  have hspec : v.nonSpec = false := by
    cases hs : v.nonSpec with
    | false => rfl
    | true => exact absurd (ht.nonSpec hs).2 hready.ne'
  have honce := ht.once
  refine ⟨?_, ⟨?_, h.squashed, fun hm' => absurd hm' (hm ▸ Bool.false_ne_true), fun _ => ?_⟩⟩
  · cases hf : v.freed with
    | false => rfl
    | true => exact absurd (h.freed_iff.mp hf).2 (hoccupies ▸ Bool.true_eq_false_eq_False.elim)
  · simp [occupies, hm, (ht.ready hready).1]
  · refine ⟨?_, fun hr => ?_, fun hw => ?_, fun hn => ?_⟩
    · exact (Nat.sub_le _ _).trans honce
    · have hpos : 0 < v.ready - 1 := hr
      omega
    · exact absurd hwaiting hw.ne'
    · exact absurd hn (hspec ▸ Bool.false_ne_true)

/-- A memory access issues; it keeps its slot. -/
theorem Good.issueMem (h : v.Good i) (hm : i.isMemRef = true) :
    ({ v with status := { v.status with issued := true } } : View).Good i where
  freed_iff := by simpa [occupies, hm] using h.freed_iff
  squashed := h.squashed
  done _ _ := rfl
  tracked hm' := absurd hm' (hm ▸ Bool.true_eq_false_eq_False.elim)

/-- A memory access is blocked by the cache before it completes; it keeps its slot. -/
theorem Good.block (h : v.Good i) (hm : i.isMemRef = true) (hdone : v.status.memOpDone = false) :
    ({ v with status := { v.status with issued := false, canIssue := false } } : View).Good i where
  freed_iff := by simpa [occupies, hm] using h.freed_iff
  squashed := h.squashed
  done _ hd := absurd hd (hdone ▸ Bool.false_ne_true)
  tracked hm' := absurd hm' (hm ▸ Bool.true_eq_false_eq_False.elim)

/-- A memory access completes, and gives its slot back for the first time. -/
theorem Good.complete (h : v.Good i) (hm : i.isMemRef = true) (hentered : v.entered = true)
    (hissued : v.status.issued = true) (hdone : v.status.memOpDone = false)
    (hsquashed : v.status.squashed = false) :
    v.freed = false ∧ ({ v with
      freed := true, status := { v.status with memOpDone := true } } : View).Good i := by
  have hiq : v.status.squashedInIQ = false := by
    cases hs : v.status.squashedInIQ with
    | false => rfl
    | true => exact absurd (h.squashed hs) (hsquashed ▸ Bool.false_ne_true)
  have hoccupies : occupies i v.status = true := by simp [occupies, hiq, hm, hdone]
  refine ⟨?_, ⟨?_, h.squashed, fun _ _ => hissued, fun hm' => ?_⟩⟩
  · cases hf : v.freed with
    | false => rfl
    | true => exact absurd (h.freed_iff.mp hf).2 (hoccupies ▸ Bool.true_eq_false_eq_False.elim)
  · simp [occupies, hm, hentered]
  · exact absurd hm' (hm ▸ Bool.true_eq_false_eq_False.elim)

/-- A squash finds an instruction in its slot, and gives the slot back for the first time. -/
theorem Good.leave (h : v.Good i) (hentered : v.entered = true)
    (hunfinished : (!v.status.issued || (i.isMemRef && !v.status.memOpDone)) = true)
    (hiq : v.status.squashedInIQ = false) :
    v.freed = false ∧ ({ v with
      freed := true
      status := { v.status with
        squashedInIQ := true, squashed := true, issued := true, canCommit := true,
        inIQ := false } } : View).Good i := by
  have hoccupies : occupies i v.status = true := by
    cases hm : i.isMemRef with
    | false =>
      have hissued : v.status.issued = false := by simpa [hm] using hunfinished
      simp [occupies, hiq, hm, hissued]
    | true =>
      have hdone : v.status.memOpDone = false := by
        cases hd : v.status.memOpDone with
        | false => rfl
        | true => simp [hm, hd, h.done hm hd] at hunfinished
      simp [occupies, hiq, hm, hdone]
  refine ⟨?_, ⟨?_, fun _ => rfl, fun _ _ => rfl, fun hm => ?_⟩⟩
  · cases hf : v.freed with
    | false => rfl
    | true => exact absurd (h.freed_iff.mp hf).2 (hoccupies ▸ Bool.true_eq_false_eq_False.elim)
  · simp [occupies, hentered]
  · obtain ⟨honce, hready, hwaiting, hspec⟩ := h.tracked hm
    exact ⟨honce, fun hr => ⟨(hready hr).1, fun _ => rfl⟩,
      fun hw => ⟨⟨(hwaiting hw).1.1, fun _ => rfl⟩, (hwaiting hw).2⟩,
      fun hn => ⟨⟨(hspec hn).1.1, fun _ => rfl⟩, (hspec hn).2⟩⟩

end View

/-! ## What the operations do to the views -/

namespace InstructionQueue

variable {threads regs : ℕ} {p : Params threads regs} {w w' : InstructionQueue threads regs}
  {x y : InstSeqNum}

/-- What the queue holds about an instruction. -/
def view (p : Params threads regs) (w : InstructionQueue threads regs) (x : InstSeqNum) : View where
  entered := w.entered.contains x
  freed := w.freed.contains x
  ready := (w.ready.readyInsts (p.code x).opClass).count x
  waiting := ∑ idx, (w.dependGraph.chain idx).count x
  nonSpec := w.nonSpecInsts x
  status := w.status x

/-- All instructions are accounted for. -/
def AllGood (p : Params threads regs) (w : InstructionQueue threads regs) : Prop :=
  ∀ x, (view p w x).Good (p.code x)

/-- An operation on one instruction. -/
theorem AllGood.of_view (h : AllGood p w) (x : InstSeqNum)
    (hx : (view p w' x).Good (p.code x)) (hy : ∀ y, y ≠ x → view p w' y = view p w y) :
    AllGood p w' := fun y => by
  rcases eq_or_ne y x with rfl | hne
  · exact hx
  · rw [hy y hne]
    exact h y

theorem view_setStatus_self (f : Status → Status) :
    view p (w.setStatus x f) x = { view p w x with status := f (w.status x) } := by
  simp only [view, setStatus, Function.update_self]

theorem view_setStatus_of_ne (f : Status → Status) (h : y ≠ x) :
    view p (w.setStatus x f) y = view p w y := by
  simp only [view, setStatus, Function.update_of_ne h]

/-- A write to the flags of one instruction. -/
theorem AllGood.setStatus (h : AllGood p w) (f : Status → Status)
    (hx : ({ view p w x with status := f (w.status x) } : View).Good (p.code x)) :
    AllGood p (w.setStatus x f) :=
  h.of_view x (view_setStatus_self f ▸ hx) fun _ hy => view_setStatus_of_ne f hy

theorem view_freeSlot_self :
    view p (w.freeSlot p x) x = { view p w x with freed := true } := by
  simp [view, freeSlot]

theorem view_freeSlot_of_ne (h : y ≠ x) : view p (w.freeSlot p x) y = view p w y := by
  simp [view, freeSlot, h]

/-- The ready queue of a class gets another list. -/
theorem view_of_ready {c : OpClass} {l : List InstSeqNum} {ready : ReadyLists}
    (hinsts : ready.readyInsts = Function.update w.ready.readyInsts c l) (y : InstSeqNum) :
    view p { w with ready } y = { view p w y with
      ready := if (p.code y).opClass = c then l.count y else (view p w y).ready } := by
  by_cases hc : (p.code y).opClass = c
  · simp [view, hinsts, hc]
  · simp [view, hinsts, hc]

/-- One chain of the graph becomes another. -/
theorem sum_count_update (chain : Fin regs → List InstSeqNum) (idx : Fin regs)
    (l : List InstSeqNum) (y : InstSeqNum) :
    (∑ i, (Function.update chain idx l i).count y) + (chain idx).count y =
      (∑ i, (chain i).count y) + l.count y :=
  DependencyGraph.sum_update (List.count y) chain idx l

/-- An instruction is made ready. -/
theorem AllGood.addReady (h : AllGood p w) (hw : Sorted p w) (hidle : (p.code x).isMemRef = false →
      (view p w x).Waits ∧ (view p w x).ready = 0 ∧ (view p w x).waiting = 0 ∧
        (view p w x).nonSpec = false) :
    ∃ ready, (w.ready.add (p.code x).opClass x).mapError Fault.ready = .ok ready ∧
      Sorted p { w with ready } ∧ AllGood p { w with ready } := by
  obtain ⟨ready, hadd, hord, hinsts⟩ := Ordered.add hw rfl
  refine ⟨ready, ?_, hord, h.of_view x ?_ fun y hy => ?_⟩
  · rw [hadd]
    rfl
  · rw [view_of_ready hinsts]
    have hcount : ((w.ready.readyInsts (p.code x).opClass).orderedInsert (· ≤ ·) x).count x =
        (view p w x).ready + 1 := by
      rw [(List.perm_orderedInsert _ _ _).count_eq, List.count_cons_self]
      rfl
    rw [if_pos rfl, hcount]
    exact (h x).addReady hidle
  · rw [view_of_ready hinsts]
    have hcount : ((w.ready.readyInsts (p.code x).opClass).orderedInsert (· ≤ ·) x).count y =
        (w.ready.readyInsts (p.code x).opClass).count y := by
      rw [(List.perm_orderedInsert _ _ _).count_eq, List.count_cons_of_ne hy.symm]
    rw [hcount]
    split
    next hc => rw [← hc]; rfl
    next => rfl

/-- The top of a class leaves its queue. -/
theorem view_takeTop (hw : Sorted p w) {e : ListOrderEntry} (he : e ∈ w.ready.listOrder)
    {ready : ReadyLists} (hinsts : ready.readyInsts = Function.update w.ready.readyInsts e.queueType
      (w.ready.readyInsts e.queueType).tail) :
    0 < (view p w e.oldestInst).ready ∧
    view p { w with ready } e.oldestInst = { view p w e.oldestInst with
      ready := (view p w e.oldestInst).ready - 1 } ∧
    ∀ y, y ≠ e.oldestInst → view p { w with ready } y = view p w y := by
  obtain ⟨l, hl⟩ := List.head?_eq_some_iff.mp (hw.tops e he)
  have hclass : (p.code e.oldestInst).opClass = e.queueType :=
    hw.queued _ _ (List.mem_of_mem_head? (hw.tops e he))
  have hcount : (view p w e.oldestInst).ready = l.count e.oldestInst + 1 := by
    simp only [view, hclass, hl, List.count_cons_self]
  refine ⟨hcount ▸ Nat.succ_pos _, ?_, fun y hy => ?_⟩
  · rw [view_of_ready hinsts, if_pos hclass, hl, List.tail_cons, hcount, Nat.add_sub_cancel]
  · rw [view_of_ready hinsts]
    split
    next hc =>
      have hready : (view p w y).ready = l.count y := by
        simp only [view, hc, hl, List.count_cons_of_ne hy.symm]
      rw [hl, List.tail_cons, ← hready]
    next => rfl

/-- A squashed instruction is dropped from its ready queue. -/
theorem AllGood.takeTop (h : AllGood p w) (hw : Sorted p w) {e : ListOrderEntry}
    (he : e ∈ w.ready.listOrder) {ready : ReadyLists}
    (hinsts : ready.readyInsts = Function.update w.ready.readyInsts e.queueType
      (w.ready.readyInsts e.queueType).tail) : AllGood p { w with ready } := by
  obtain ⟨-, hx, hy⟩ := view_takeTop hw he hinsts
  refine h.of_view e.oldestInst ?_ hy
  rw [hx]
  exact (h e.oldestInst).remove (Nat.sub_le _ _) le_rfl id

/-! ## The books -/

/-- The part of the queue that the accounting is about. -/
structure Slots (threads : ℕ) where
  freeEntries : ℕ
  count : Fin threads → ℤ
  instList : Fin threads → List InstSeqNum
  memInsts : List InstSeqNum
  entered : List InstSeqNum
  freed : List InstSeqNum

def slots (w : InstructionQueue threads regs) : Slots threads where
  freeEntries := w.freeEntries
  count := w.count
  instList := w.instList
  memInsts := w.deferredMemInsts ++ (w.blockedMemInsts ++ w.retryMemInsts)
  entered := w.entered
  freed := w.freed

/-- The instructions of one thread, among some. -/
def ofThread (p : Params threads regs) (tid : Fin threads) (l : List InstSeqNum) :
    List InstSeqNum :=
  l.filter fun x => (p.code x).threadNumber = tid

/-- The books are kept: every entry is one that entered and was not given back, or is free. -/
structure Books (p : Params threads regs) (s : Slots threads) : Prop where
  entered : s.entered.Nodup
  freed : s.freed.Nodup
  free : s.freeEntries + s.entered.length = p.numEntries + s.freed.length
  counts : ∀ tid, s.count tid + (ofThread p tid s.freed).length = (ofThread p tid s.entered).length
  listed : ∀ tid, ∀ x ∈ s.instList tid, x ∈ s.entered
  mem : ∀ x ∈ s.memInsts, (p.code x).isMemRef = true

theorem length_ofThread_append (p : Params threads regs) (tid : Fin threads) (l : List InstSeqNum)
    (x : InstSeqNum) : (ofThread p tid (l ++ [x])).length =
      (ofThread p tid l).length + if (p.code x).threadNumber = tid then 1 else 0 := by
  unfold ofThread
  rw [List.filter_append, List.length_append]
  split
  next h => rw [List.filter_cons_of_pos (by simpa using h)]; rfl
  next h => rw [List.filter_cons_of_neg (by simpa using h)]; rfl

/-- A slot is given back for the first time. -/
theorem Books.freeSlot (h : Books p w.slots) (hx : x ∉ w.freed) :
    Books p (w.freeSlot p x).slots where
  entered := h.entered
  freed := by
    have hfreed : (w.freeSlot p x).slots.freed = w.freed ++ [x] := rfl
    rw [hfreed, List.nodup_append]
    exact ⟨h.freed, List.nodup_singleton x, fun a ha b hb =>
      fun hab => hx (List.mem_singleton.mp hb ▸ hab ▸ ha)⟩
  free := by
    have hfree := h.free
    simp only [slots, InstructionQueue.freeSlot, List.length_append, List.length_singleton]
      at hfree ⊢
    omega
  counts tid := by
    have hcounts := h.counts tid
    simp only [slots, InstructionQueue.freeSlot] at hcounts ⊢
    rw [length_ofThread_append]
    by_cases htid : (p.code x).threadNumber = tid
    · subst htid
      rw [Function.update_self, if_pos rfl]
      push_cast
      omega
    · rw [Function.update_of_ne (Ne.symm htid), if_neg htid]
      exact hcounts
  listed := h.listed
  mem := h.mem

/-- Everything about the queue that the accounting needs. -/
structure Accounted (p : Params threads regs) (w : InstructionQueue threads regs) : Prop where
  sorted : Sorted p w
  books : Books p w.slots
  good : AllGood p w

/-- The state of a queue inside an operation, while its slots are `s`. -/
structure Inside (p : Params threads regs) (s : Slots threads)
    (w : InstructionQueue threads regs) : Prop where
  sorted : Sorted p w
  slots : w.slots = s
  good : AllGood p w

theorem Accounted.inside (h : Accounted p w) : Inside p w.slots w := ⟨h.sorted, rfl, h.good⟩

theorem Inside.accounted {s : Slots threads} (h : Inside p s w) (hs : Books p s) : Accounted p w :=
  ⟨h.sorted, h.slots ▸ hs, h.good⟩

theorem not_mem_freed (h : (view p w x).freed = false) : x ∉ w.freed := fun hx => by
  rw [view, List.contains_iff_mem.mpr hx] at h
  cases h

/-! ## Making ready and waking -/

variable {s : Slots threads}

/-- An instruction is made ready if it may issue. -/
theorem Inside.addIfReady (h : Inside p s w) (hidle : (p.code x).isMemRef = false →
      (w.status x).canIssue = true → (view p w x).Waits ∧ (view p w x).ready = 0 ∧
        (view p w x).waiting = 0 ∧ (view p w x).nonSpec = false) :
    ∃ ready, w.addIfReady p x = .ok { w with ready } ∧ Inside p s { w with ready } := by
  unfold InstructionQueue.addIfReady
  split
  next hcan =>
    split
    next => exact ⟨w.ready, rfl, h⟩
    next hm =>
      rw [Bool.not_eq_true] at hm
      obtain ⟨ready, hadd, hsorted, hgood⟩ := h.good.addReady h.sorted fun _ => hidle hm hcan
      exact ⟨ready, bind_eq_ok.mpr ⟨ready, hadd, rfl⟩, hsorted, h.slots, hgood⟩
  next => exact ⟨w.ready, rfl, h⟩

/-- The first node of a chain is taken off. -/
theorem view_pop {idx : Fin regs} {l : List InstSeqNum} (hl : w.dependGraph.chain idx = x :: l) :
    0 < (view p w x).waiting ∧
    view p { w with dependGraph := w.dependGraph.pop idx } x =
      { view p w x with waiting := (view p w x).waiting - 1 } ∧
    ∀ y, y ≠ x → view p { w with dependGraph := w.dependGraph.pop idx } y = view p w y := by
  have hsum : ∀ y, (∑ i, ((w.dependGraph.pop idx).chain i).count y) + (x :: l).count y =
      (∑ i, (w.dependGraph.chain i).count y) + l.count y := fun y => by
    have hupdate := sum_count_update w.dependGraph.chain idx l y
    rw [hl] at hupdate
    simp only [DependencyGraph.pop, hl, List.tail_cons]
    exact hupdate
  have hself := hsum x
  rw [List.count_cons_self] at hself
  refine ⟨?_, ?_, fun y hy => ?_⟩
  · show 0 < ∑ i, (w.dependGraph.chain i).count x
    omega
  · simp only [view, View.mk.injEq, true_and, and_true]
    omega
  · have hother := hsum y
    rw [List.count_cons_of_ne hy.symm] at hother
    simp only [view, View.mk.injEq, true_and, and_true]
    omega

/-- All dependents of a register are woken. -/
theorem Inside.wakeChain {idx : Fin regs} {l : List InstSeqNum} (h : Inside p s w)
    (hl : w.dependGraph.chain idx = l) :
    Ends (Inside p s) (fun _ => True) (wakeChain p idx l w) := by
  induction l generalizing w with
  | nil => exact h
  | cons x l ih =>
    obtain ⟨hpos, hx, hy⟩ := view_pop (p := p) hl
    let u : InstructionQueue threads regs := { w with dependGraph := w.dependGraph.pop idx }
    let v := u.setStatus x (.markSrcRegReady (p.code x).srcRegs.length)
    have hview : view p v x = { view p w x with
        waiting := (view p w x).waiting - 1
        status := (w.status x).markSrcRegReady (p.code x).srcRegs.length } := by
      rw [view_setStatus_self, hx]
    obtain ⟨hgood, hidle⟩ := (h.good x).wake hpos
    have hv : Inside p s v := by
      refine ⟨h.sorted, h.slots, h.good.of_view x ?_ fun y hne => ?_⟩
      · rw [hview]
        exact hgood
      · rw [view_setStatus_of_ne _ hne]
        exact hy y hne
    obtain ⟨ready, hadd, hready⟩ := hv.addIfReady (x := x) fun hm hcan => by
      rw [hview]
      refine hidle hm ?_
      have hstatus : (v.status x) = (w.status x).markSrcRegReady _ := congrArg View.status hview
      rwa [hstatus] at hcan
    have hrest : v.dependGraph.chain idx = l := by
      show (w.dependGraph.pop idx).chain idx = l
      rw [DependencyGraph.pop_chain_self, hl, List.tail_cons]
    unfold InstructionQueue.wakeChain
    simp only
    rw [hadd]
    exact ih hready hrest

/-- One destination register of an instruction that completes. -/
theorem Inside.wakeDest (h : Inside p s w) (dest : PhysReg regs) :
    Ends (Inside p s) (fun _ => True) (wakeDest p w dest) := by
  unfold InstructionQueue.wakeDest
  split
  · exact h
  · simp only
    split
    · exact ⟨h.sorted, h.slots, h.good⟩
    · refine Ends.bind (P := Inside p s) ?_ fun u hu => ?_
      · exact Inside.wakeChain ⟨h.sorted, h.slots, h.good⟩ rfl
      · exact ⟨hu.sorted, hu.slots, hu.good⟩

/-- **An instruction completes**: a memory access gives its slot back, and the dependents are
woken. -/
theorem Accounted.wakeDependents (h : Accounted p w) (hx : (p.code x).isMemRef = true →
      x ∈ w.entered ∧ (w.status x).issued = true ∧ (w.status x).memOpDone = false) :
    Ends (Accounted p) (fun _ => True) (w.wakeDependents p x) := by
  refine (ends_require trivial).bind fun _ hsquashed => ?_
  have hstart : ∃ s, Books p s ∧ Inside p s (if (p.code x).isMemRef then
      (w.freeSlot p x).setStatus x fun s => { s with memOpDone := true } else w) := by
    split
    next hm =>
      obtain ⟨hentered, hissued, hdone⟩ := hx hm
      obtain ⟨hfreed, hgood⟩ := (h.good x).complete hm (List.contains_iff_mem.mpr hentered) hissued
        hdone (by simpa using hsquashed : (w.status x).squashed = false)
      refine ⟨_, h.books.freeSlot (not_mem_freed hfreed), h.sorted, rfl,
        h.good.of_view x ?_ fun y hy => ?_⟩
      · rw [view_setStatus_self, view_freeSlot_self]
        exact hgood
      · rw [view_setStatus_of_ne _ hy, view_freeSlot_of_ne hy]
    next => exact ⟨_, h.books, h.inside⟩
  obtain ⟨s, hs, hin⟩ := hstart
  refine (Ends.foldlM (fun u dest _ hu => hu.wakeDest dest) hin).mono fun u hu => ?_
  exact hu.accounted hs

/-! ## Insertion -/

/-- An instruction on its way into the queue, with `rest` source registers still to look at that
rename did not find ready. -/
def Entering (p : Params threads regs) (w : InstructionQueue threads regs) (x : InstSeqNum)
    (rest : ℕ) : Prop :=
  (view p w x).Waits ∧ (view p w x).ready = 0 ∧ (view p w x).nonSpec = false ∧
    (view p w x).status.readyRegs + (view p w x).waiting + rest ≤ (p.code x).srcRegs.length ∧
    ((view p w x).status.canIssue = true → (view p w x).waiting + rest = 0)

theorem Entering.tracked {rest : ℕ} (h : Entering p w x rest) :
    (view p w x).Tracked (p.code x) := by
  obtain ⟨hw, hr, hn, hle, hcan⟩ := h
  refine ⟨hr ▸ Nat.zero_le 1, fun _ => hw, fun hpos => ⟨hw, hr, ?_, by omega, hn⟩, fun hs => ?_⟩
  · cases hc : (view p w x).status.canIssue with
    | false => rfl
    | true => exact absurd (Nat.add_eq_zero_iff.mp (hcan hc)).1 hpos.ne'
  · exact absurd hs (hn ▸ Bool.false_ne_true)

/-- A node for the instruction is added to a chain. -/
theorem view_insert (idx : Fin regs) :
    view p { w with dependGraph := w.dependGraph.insert idx x } x =
      { view p w x with waiting := (view p w x).waiting + 1 } ∧
    ∀ y, y ≠ x → view p { w with dependGraph := w.dependGraph.insert idx x } y = view p w y := by
  have hsum : ∀ y, (∑ i, ((w.dependGraph.insert idx x).chain i).count y) +
      (w.dependGraph.chain idx).count y = (∑ i, (w.dependGraph.chain i).count y) +
        (x :: w.dependGraph.chain idx).count y :=
    sum_count_update w.dependGraph.chain idx (x :: w.dependGraph.chain idx)
  refine ⟨?_, fun y hy => ?_⟩
  · have hself := hsum x
    rw [List.count_cons_self] at hself
    simp only [view, View.mk.injEq, true_and, and_true]
    omega
  · have hother := hsum y
    rw [List.count_cons_of_ne hy.symm] at hother
    simp only [view, View.mk.injEq, true_and, and_true]
    omega

/-- What `addToDependents` leaves to look at. -/
def unreadySrcs (w : InstructionQueue threads regs) (x : InstSeqNum)
    (srcs : List (PhysReg regs × ℕ)) : ℕ :=
  srcs.countP fun src => !(w.status x).readySrcIdx src.2

/-- One source register of an instruction on its way in. -/
theorem addDependent_step (h : Inside p s w) (src : PhysReg regs × ℕ) (rest : ℕ)
    (hx : (p.code x).isMemRef = false →
      Entering p w x ((if (w.status x).readySrcIdx src.2 then 0 else 1) + rest)) :
    Inside p s (addDependent p x w src) ∧
    ((p.code x).isMemRef = false → Entering p (addDependent p x w src) x rest) ∧
    (∀ i, i ≠ src.2 → ((addDependent p x w src).status x).readySrcIdx i =
      (w.status x).readySrcIdx i) := by
  unfold addDependent
  split
  next hready =>
    refine ⟨h, fun hm => ?_, fun _ _ => rfl⟩
    have hin := hx hm
    rwa [if_pos hready, Nat.zero_add] at hin
  next hready =>
    rw [if_neg hready] at hx
    split
    next =>
      refine ⟨h, fun hm => ?_, fun _ _ => rfl⟩
      obtain ⟨hw, hr, hn, hle, hcan⟩ := hx hm
      exact ⟨hw, hr, hn, by omega, fun hc => by have := hcan hc; omega⟩
    next =>
      split
      next =>
        -- the register was written in the meantime
        let f : Status → Status := .markSrcIdxReady (p.code x).srcRegs.length src.2
        have hin : (p.code x).isMemRef = false → Entering p (w.setStatus x f) x rest := fun hm => by
          obtain ⟨hw, hr, hn, hle, hcan⟩ := hx hm
          unfold Entering
          rw [view_setStatus_self]
          refine ⟨hw, hr, hn, ?_, fun hc => ?_⟩
          · show (w.status x).readyRegs + 1 + (view p w x).waiting + rest ≤ _
            have hregs : (view p w x).status.readyRegs = (w.status x).readyRegs := rfl
            omega
          · have hregs : (view p w x).status.readyRegs = (w.status x).readyRegs := rfl
            have hc' : (w.status x).canIssue = true ∨
                (w.status x).readyRegs + 1 = (p.code x).srcRegs.length := by
              simpa [f, Status.markSrcIdxReady, Status.markSrcRegReady] using hc
            show (view p w x).waiting + rest = 0
            rcases hc' with hc' | hc'
            · have := hcan hc'
              omega
            · omega
        refine ⟨⟨h.sorted, h.slots, h.good.setStatus f ?_⟩, hin, fun i hi => ?_⟩
        · refine (h.good x).of_flags rfl rfl rfl rfl rfl id fun hm => ?_
          have htracked := (hin hm).tracked
          rwa [view_setStatus_self] at htracked
        · rw [setStatus_self]
          exact Function.update_of_ne hi _ _
      next =>
        -- the instruction has to wait
        obtain ⟨hself, hother⟩ := view_insert (p := p) (w := w) (x := x) src.1.flatIndex
        have hin : (p.code x).isMemRef = false →
            Entering p { w with dependGraph := w.dependGraph.insert src.1.flatIndex x } x rest := by
          intro hm
          obtain ⟨hw, hr, hn, hle, hcan⟩ := hx hm
          unfold Entering
          rw [hself]
          refine ⟨hw, hr, hn, ?_, fun hc => ?_⟩
          · show (view p w x).status.readyRegs + ((view p w x).waiting + 1) + rest ≤ _
            omega
          · have := hcan hc
            omega
        refine ⟨⟨h.sorted, h.slots, h.good.of_view x ?_ hother⟩, hin, fun _ _ => rfl⟩
        rw [hself]
        refine (h.good x).of_flags rfl rfl rfl rfl rfl id fun hm => ?_
        have htracked := (hin hm).tracked
        rwa [hself] at htracked

/-- All source registers of an instruction on its way in. -/
theorem Inside.addDependents {l : List (PhysReg regs)} {k : ℕ} (h : Inside p s w)
    (hx : (p.code x).isMemRef = false → Entering p w x (unreadySrcs w x (l.zipIdx k))) :
    Inside p s ((l.zipIdx k).foldl (addDependent p x) w) ∧
    ((p.code x).isMemRef = false →
      Entering p ((l.zipIdx k).foldl (addDependent p x) w) x 0) := by
  induction l generalizing w k with
  | nil => exact ⟨h, hx⟩
  | cons src l ih =>
    rw [List.zipIdx_cons, List.foldl_cons]
    have hcons : unreadySrcs w x ((src, k) :: l.zipIdx (k + 1)) =
        (if (w.status x).readySrcIdx k then 0 else 1) + unreadySrcs w x (l.zipIdx (k + 1)) := by
      unfold unreadySrcs
      rw [List.countP_cons, Nat.add_comm]
      cases (w.status x).readySrcIdx k <;> rfl
    rw [List.zipIdx_cons, hcons] at hx
    obtain ⟨hstep, hin, hidx⟩ := addDependent_step h (src, k) _ hx
    refine ih hstep fun hm => ?_
    -- the registers after this one are as unready as before
    have hrest : unreadySrcs (addDependent p x w (src, k)) x (l.zipIdx (k + 1)) =
        unreadySrcs w x (l.zipIdx (k + 1)) := by
      refine List.countP_congr fun s hs => ?_
      rw [hidx s.2 (Nat.ne_of_gt (List.le_snd_of_mem_zipIdx hs))]
    rw [hrest]
    exact hin hm

/-- The queue holds nothing about an instruction that never entered. -/
theorem AllGood.fresh (h : AllGood p w) (hx : x ∉ w.entered) : x ∉ w.freed ∧
    ((p.code x).isMemRef = false → (view p w x).ready = 0 ∧ (view p w x).waiting = 0) := by
  have hentered : (view p w x).entered ≠ true := fun he => hx (List.contains_iff_mem.mp he)
  refine ⟨fun hf => ?_, fun hm => ⟨?_, ?_⟩⟩
  · exact hentered ((h x).freed_iff.mp (List.contains_iff_mem.mpr hf)).1
  · by_contra hne
    exact hentered (((h x).tracked hm).ready (Nat.pos_of_ne_zero hne)).1
  · by_contra hne
    exact hentered (((h x).tracked hm).waiting (Nat.pos_of_ne_zero hne)).1.1

theorem slots_countInst (x : InstSeqNum) : (w.countInst p x).slots = { w.slots with
    count := Function.update w.slots.count (p.code x).threadNumber
      (w.slots.count (p.code x).threadNumber + 1) } := rfl

/-- The books once an instruction took a slot. -/
theorem Books.enter (h : Books p w.slots) (hx : x ∉ w.entered) (hfree : w.freeEntries ≠ 0) :
    let tid := (p.code x).threadNumber
    Books p { w.slots with
      instList := Function.update w.instList tid (w.instList tid ++ [x])
      freeEntries := w.freeEntries - 1
      entered := w.entered ++ [x]
      count := Function.update w.count tid (w.count tid + 1) } where
  entered := by
    rw [List.nodup_append]
    exact ⟨h.entered, List.nodup_singleton x, fun a ha b hb =>
      fun hab => hx (List.mem_singleton.mp hb ▸ hab ▸ ha)⟩
  freed := h.freed
  free := by
    have hbooks := h.free
    simp only [slots, List.length_append, List.length_singleton] at hbooks ⊢
    omega
  counts tid := by
    have hcounts := h.counts tid
    simp only [slots] at hcounts ⊢
    rw [length_ofThread_append]
    by_cases htid : (p.code x).threadNumber = tid
    · subst htid
      rw [Function.update_self, if_pos rfl]
      push_cast
      omega
    · rw [Function.update_of_ne (Ne.symm htid), if_neg htid]
      exact hcounts
  listed tid y hy := by
    rw [List.mem_append]
    by_cases htid : tid = (p.code x).threadNumber
    · subst htid
      simp only [Function.update_self, List.mem_append] at hy
      exact hy.imp_left (h.listed _ y)
    · simp only [Function.update_of_ne htid] at hy
      exact .inl (h.listed tid y hy)
  mem := h.mem

/-- An instruction takes a slot; it is counted only at the end of the insertion. -/
theorem enter_inside (hw : Sorted p w) (hb : Books p w.slots)
    (hg : ∀ y, y ≠ x → (view p w y).Good (p.code y)) (hx : x ∉ w.entered) (hfreed : x ∉ w.freed)
    (hidle : (p.code x).isMemRef = false → (view p w x).ready = 0 ∧ (view p w x).waiting = 0)
    (readySrc : ℕ → Bool) :
    Ends (fun u => Inside p u.slots u ∧ Books p (u.countInst p x).slots ∧
      ((p.code x).isMemRef = false → w.nonSpecInsts x = false →
        Entering p u x (unreadySrcs u x (p.code x).srcRegs.zipIdx)))
      (fun _ => True) (w.enter p x readySrc) := by
  refine (ends_require trivial).bind fun _ hfree => ?_
  let s := { Status.renamed (p.code x) readySrc with inIQ := true }
  let u : InstructionQueue threads regs :=
    { w with
      instList := Function.update w.instList (p.code x).threadNumber
        (w.instList (p.code x).threadNumber ++ [x])
      freeEntries := w.freeEntries - 1
      status := Function.update w.status x s
      entered := w.entered ++ [x] }
  have hself : view p u x = { view p w x with entered := true, status := s } := by
    simp [u, view]
  have hother : ∀ y, y ≠ x → view p u y = view p w y := fun y hy => by
    simp [u, view, hy]
  have hfreed' : (view p w x).freed = false := by
    simpa [view] using hfreed
  have hgood : (view p u x).Good (p.code x) := by
    rw [hself]
    refine ⟨?_, fun h => h, fun _ h => absurd h Bool.false_ne_true, fun hm => ?_⟩
    · simp [hfreed', occupies, s, Status.renamed]
    · obtain ⟨hr, hwait⟩ := hidle hm
      refine ⟨hr ▸ Nat.zero_le 1, fun h => absurd hr h.ne', fun h => absurd hwait h.ne',
        fun _ => ⟨⟨rfl, fun h => absurd h Bool.false_ne_true⟩, hr⟩⟩
  show Inside p u.slots u ∧ Books p (u.countInst p x).slots ∧ _
  refine ⟨⟨hw, rfl, fun y => ?_⟩, hb.enter hx (of_decide_eq_true hfree), fun hm hspec => ?_⟩
  · rcases eq_or_ne y x with rfl | hy
    · exact hgood
    · rw [hother y hy]
      exact hg y hy
  · obtain ⟨hr, hwait⟩ := hidle hm
    have hstatus : u.status x = s := Function.update_self ..
    have hsplit := List.length_eq_countP_add_countP (fun src : PhysReg regs × ℕ => readySrc src.2)
      (l := (p.code x).srcRegs.zipIdx)
    rw [List.length_zipIdx] at hsplit
    have hunready : unreadySrcs u x (p.code x).srcRegs.zipIdx =
        (p.code x).srcRegs.zipIdx.countP fun src => decide ¬readySrc src.2 = true := by
      unfold unreadySrcs
      rw [hstatus]
      exact List.countP_congr fun src _ => by simp [s, Status.renamed]
    unfold Entering
    rw [hself, hunready]
    refine ⟨⟨rfl, fun h => absurd h Bool.false_ne_true⟩, hr, hspec, ?_, fun hcan => ?_⟩
    · simp only [hwait, s, Status.renamed]
      omega
    · simp only [s, Status.renamed, decide_eq_true_eq] at hcan
      simp only [hwait]
      omega

/-- The views and the slots stay. -/
theorem Inside.addToProducers (h : Inside p s w) :
    Ends (fun u => Inside p s u ∧ view p u = view p w) (fun _ => True) (w.addToProducers p x) := by
  refine Ends.foldlM (fun u dest _ hu => ?_) ⟨h, rfl⟩
  unfold addProducer
  split_ifs
  · exact hu
  · exact ⟨⟨hu.1.sorted, hu.1.slots, hu.1.good⟩, hu.2⟩
  · trivial

/-- **An instruction is inserted.** -/
theorem Accounted.insert (h : Accounted p w) (hx : x ∉ w.entered) (readySrc : ℕ → Bool) :
    Ends (Accounted p) (fun _ => True) (w.insert p x readySrc) := by
  obtain ⟨hfreed, hidle⟩ := h.good.fresh hx
  have hspec : (p.code x).isMemRef = false → w.nonSpecInsts x = false := fun hm => by
    cases hs : w.nonSpecInsts x with
    | false => rfl
    | true => exact absurd (List.contains_iff_mem.mp (((h.good x).tracked hm).nonSpec hs).1.1) hx
  refine (enter_inside h.sorted h.books (fun y _ => h.good y) hx hfreed hidle readySrc).bind
    fun u ⟨hu, hbooks, hin⟩ => ?_
  have hmarked : Inside p u.slots { u with inGraph := Function.update u.inGraph x true } :=
    ⟨hu.sorted, hu.slots, hu.good⟩
  obtain ⟨hdeps, hin⟩ := hmarked.addDependents (x := x) (k := 0) fun hm => hin hm (hspec hm)
  refine hdeps.addToProducers.bind fun v ⟨hv, hview⟩ => ?_
  have hoffer : Ends (Inside p u.slots) (fun _ => True) (v.offer p x) := by
    unfold offer
    split
    next => exact hv
    next hm =>
      rw [Bool.not_eq_true] at hm
      obtain ⟨hw, hr, hn, -, hcan⟩ := hin hm
      obtain ⟨ready, hadd, hready⟩ := hv.addIfReady (x := x) fun _ hc => by
        rw [hview]
        have hstatus : v.status x = _ := congrArg View.status (congrFun hview x)
        rw [hstatus] at hc
        exact ⟨hw, hr, hcan hc, hn⟩
      rw [hadd]
      exact hready
  refine hoffer.bind fun t ht => ?_
  refine ⟨ht.sorted, ?_, ht.good⟩
  rw [slots_countInst, ht.slots]
  exact hbooks

/-- **An instruction is inserted that waits for commit.** -/
theorem Accounted.insertNonSpec (h : Accounted p w) (hx : x ∉ w.entered) (readySrc : ℕ → Bool) :
    Ends (Accounted p) (fun _ => True) (w.insertNonSpec p x readySrc) := by
  obtain ⟨hfreed, hidle⟩ := h.good.fresh hx
  let v : InstructionQueue threads regs :=
    { w with nonSpecInsts := Function.update w.nonSpecInsts x true }
  have hother : ∀ y, y ≠ x → (view p v y).Good (p.code y) := fun y hy => by
    have hview : view p v y = view p w y := by simp [v, view, hy]
    rw [hview]
    exact h.good y
  have hsorted : Sorted p v := h.sorted
  have hbooks : Books p v.slots := h.books
  refine (enter_inside hsorted hbooks hother hx hfreed hidle readySrc).bind fun u ⟨hu, hb, _⟩ => ?_
  refine hu.addToProducers.bind fun t ⟨ht, _⟩ => ?_
  refine ⟨ht.sorted, ?_, ht.good⟩
  rw [slots_countInst, ht.slots]
  exact hb

/-- **Commit lets an instruction go that waited for it.** -/
theorem Accounted.scheduleNonSpec (h : Accounted p w) :
    Ends (Accounted p) (fun _ => True) (w.scheduleNonSpec p x) := by
  refine (ends_require trivial).bind fun _ hspec => ?_
  let f : Status → Status := fun s => { s with atCommit := true, canIssue := true }
  -- the queue once the instruction is out of `nonSpecInsts`
  let v : InstructionQueue threads regs :=
    { w with nonSpecInsts := Function.update w.nonSpecInsts x false }.setStatus x f
  have hself : view p v x = { view p w x with nonSpec := false, status := f (w.status x) } := by
    simp [v, view, setStatus]
  have hother : ∀ y, y ≠ x → view p v y = view p w y := fun y hy => by
    simp [v, view, setStatus, hy]
  have hidle : (p.code x).isMemRef = false → (view p v x).Waits ∧ (view p v x).ready = 0 ∧
      (view p v x).waiting = 0 ∧ (view p v x).nonSpec = false := fun hm => by
    have ht := (h.good x).tracked hm
    have hwaiting : (view p w x).waiting = 0 := by
      by_contra hne
      have hno : w.nonSpecInsts x = false := (ht.waiting (Nat.pos_of_ne_zero hne)).2.2.2.2
      exact absurd hspec (hno ▸ Bool.false_ne_true)
    rw [hself]
    exact ⟨(ht.nonSpec hspec).1, (ht.nonSpec hspec).2, hwaiting, rfl⟩
  have hv : AllGood p v := by
    refine h.good.of_view x ?_ hother
    rw [hself] at hidle ⊢
    refine (h.good x).of_flags rfl rfl rfl rfl rfl id fun hm => ?_
    obtain ⟨hw, hr, hwaiting, hn⟩ := hidle hm
    exact ⟨hr ▸ Nat.zero_le 1, fun _ => hw, fun hp => absurd hwaiting hp.ne',
      fun hp => absurd hp (hn ▸ Bool.false_ne_true)⟩
  unfold offer
  split
  next => exact ⟨h.sorted, h.books, hv⟩
  next hm =>
    have hcan : ((w.setStatus x f).status x).canIssue = true := by rw [setStatus_self]
    obtain ⟨ready, hadd, hsorted, hgood⟩ := AllGood.addReady (w := v) hv h.sorted hidle
    have hready : (w.setStatus x f).addIfReady p x = .ok { w.setStatus x f with ready } := by
      unfold InstructionQueue.addIfReady
      rw [if_pos hcan, if_neg hm]
      exact bind_eq_ok.mpr ⟨ready, hadd, rfl⟩
    rw [hready]
    exact ⟨hsorted, h.books, hgood⟩

/-! ## Issue -/

theorem sendToExecute_frame (x : InstSeqNum) (idx : FUAnswer) (ready : ReadyLists) :
    (w.sendToExecute x idx).slots = w.slots ∧
      view p { w.sendToExecute x idx with ready } = view p { w with ready } := by
  unfold sendToExecute
  split <;> exact ⟨rfl, rfl⟩

/-- An instruction issues. -/
theorem Accounted.issue (h : Accounted p w) {i : ℕ} {e : ListOrderEntry}
    (he : w.ready.listOrder[i]? = some e) (hsquashed : (w.status e.oldestInst).squashed = false)
    (idx : FUAnswer) : Ends (Accounted p) (fun _ => True)
      (w.issue p i e.queueType e.oldestInst idx) := by
  have hmem : e ∈ w.ready.listOrder := List.mem_of_getElem? he
  obtain ⟨ready, htake, hord, hinsts, -⟩ := takeTop_spec h.sorted he
  obtain ⟨hpos, hself, hother⟩ := view_takeTop h.sorted hmem hinsts
  obtain ⟨hslots, hview⟩ := sendToExecute_frame (p := p) (w := w) e.oldestInst idx ready
  let u : InstructionQueue threads regs := { w.sendToExecute e.oldestInst idx with ready }
  have hissue : w.issue p i e.queueType e.oldestInst idx = .ok (u.markIssued p e.oldestInst) := by
    unfold InstructionQueue.issue
    simp only
    rw [sendToExecute_ready, htake]
    rfl
  have hbooks : Books p u.slots := hslots ▸ h.books
  have hself' : view p u e.oldestInst = { view p w e.oldestInst with
      ready := (view p w e.oldestInst).ready - 1 } := hview ▸ hself
  have hother' : ∀ y, y ≠ e.oldestInst → view p u y = view p w y := hview ▸ hother
  have hstatus : u.status e.oldestInst = w.status e.oldestInst := congrArg View.status hself'
  rw [hissue]
  unfold markIssued
  simp only
  split
  next hm =>
    refine ⟨hord, hbooks, h.good.of_view e.oldestInst ?_ fun y hy => ?_⟩
    · rw [view_setStatus_self, hself', hstatus]
      exact ((h.good e.oldestInst).remove (Nat.sub_le _ _) le_rfl id).issueMem hm
    · rw [view_setStatus_of_ne _ hy, hother' y hy]
  next hm =>
    rw [Bool.not_eq_true] at hm
    obtain ⟨hfreed, hgood⟩ := (h.good e.oldestInst).issue hm hpos hsquashed
    have hnot : e.oldestInst ∉ u.freed := not_mem_freed (p := p) (by rw [hself']; exact hfreed)
    refine ⟨hord, hbooks.freeSlot hnot, h.good.of_view e.oldestInst ?_ fun y hy => ?_⟩
    · have hstatus' : ((u.setStatus e.oldestInst fun s => { s with issued := true }).freeSlot p
          e.oldestInst).status e.oldestInst = { w.status e.oldestInst with issued := true } := by
        rw [← hstatus]
        exact Function.update_self ..
      rw [view_setStatus_self, view_freeSlot_self, view_setStatus_self, hself', hstatus']
      exact hgood
    · rw [view_setStatus_of_ne _ hy, view_freeSlot_of_ne hy, view_setStatus_of_ne _ hy,
        hother' y hy]

/-- The loop of `scheduleReadyInsts`. -/
theorem Accounted.scheduleLoop (fu : ℕ → FUAnswer) {fuel i : ℕ} (visit : ℕ)
    (issued : List InstSeqNum) (h : Accounted p w) :
    Ends (fun r => Accounted p r.1) (fun _ => True) (scheduleLoop p fu fuel visit i issued w) := by
  induction fuel generalizing visit i issued w with
  | zero => trivial
  | succ fuel ih =>
    unfold InstructionQueue.scheduleLoop
    split
    next =>
      split
      next => exact h
      next e he =>
        have hmem : e ∈ w.ready.listOrder := List.mem_of_getElem? he
        have htop : (w.ready.top e.queueType).mapError Fault.ready = .ok e.oldestInst := by
          rw [top_eq (h.sorted.tops e hmem)]
          rfl
        rw [htop]
        refine (ends_require (b := e.oldestInst = e.oldestInst) trivial).bind fun _ _ => ?_
        split
        next =>
          obtain ⟨ready, htake, hord, hinsts, -⟩ := takeTop_spec h.sorted he
          rw [htake]
          exact ih _ _ ⟨hord, h.books, h.good.takeTop h.sorted hmem hinsts⟩
        next hsquashed =>
          rw [Bool.not_eq_true] at hsquashed
          generalize (if e.queueType = No_OpClass then FUAnswer.NoCapableFU else fu visit) = idx
          simp only
          split
          next => exact ih _ _ h
          next => exact (h.issue he hsquashed idx).bind fun u hu => ih _ _ hu
    next => exact h

/-- **One call of `scheduleReadyInsts`.** -/
theorem Accounted.scheduleReadyInsts (h : Accounted p w) (fu : ℕ → FUAnswer) :
    Ends (fun r => Accounted p r.1) (fun _ => True) (w.scheduleReadyInsts p fu) := by
  have hmem : ∀ x ∈ w.memInstsToExecute, (p.code x).isMemRef = true := fun x hx => by
    refine h.books.mem x ?_
    simp only [slots, List.mem_append]
    rcases List.mem_append.mp hx with hx | hx
    · exact .inl (List.mem_of_mem_filter hx)
    · exact .inr (.inr hx)
  have hadd : Ends (Accounted p) (fun _ => True) (w.addMemInsts p) := by
    refine Ends.foldlM (fun u x hx hu => ?_) ?_
    · obtain ⟨ready, hadd, hsorted, hgood⟩ := hu.good.addReady hu.sorted fun hm =>
        absurd (hmem x hx) (hm ▸ Bool.false_ne_true)
      rw [addReadyMemInst, InstructionQueue.addReady, hadd]
      exact ⟨hsorted, hu.books, hgood⟩
    · refine ⟨h.sorted, ⟨h.books.entered, h.books.freed, h.books.free, h.books.counts,
        h.books.listed, fun x hx => h.books.mem x ?_⟩, h.good⟩
      simp only [slots, List.mem_append] at hx ⊢
      rcases hx with hx | hx | hx
      · exact .inl (List.mem_of_mem_filter hx)
      · exact .inr (.inl hx)
      · cases hx
  exact hadd.bind fun u hu => hu.scheduleLoop fu 0 []

/-! ## Squash -/

/-- A node of an instruction is taken out of a chain, or none. -/
theorem Inside.removeSource (h : Inside p s w) (src : PhysReg regs × ℕ) :
    Ends (fun u => Inside p s u ∧ u.status = w.status) (fun _ => True)
      (removeSource x w src) := by
  unfold InstructionQueue.removeSource
  split
  next => exact ⟨h, rfl⟩
  next =>
    split
    next g hg =>
      refine ⟨⟨h.sorted, h.slots, fun y => ?_⟩, rfl⟩
      have hle : ∑ i, (g.chain i).count y ≤ ∑ i, (w.dependGraph.chain i).count y := by
        rcases DependencyGraph.remove_eq_some hg with rfl | ⟨-, rfl⟩
        · exact le_rfl
        · refine Finset.sum_le_sum fun i _ => ?_
          rcases eq_or_ne i src.1.flatIndex with rfl | hi
          · simp only [Function.update_self]
            exact (List.erase_sublist).count_le y
          · simp only [Function.update_of_ne hi]
            exact le_rfl
      exact (h.good y).remove le_rfl hle id
    next => trivial

/-- What a squash takes an instruction out of. -/
theorem Inside.unregister (h : Inside p s w) :
    Ends (fun u => Inside p s u ∧ u.status = w.status) (fun _ => True) (w.unregister p x) := by
  unfold InstructionQueue.unregister
  simp only
  split_ifs
  · refine Ends.foldlM (fun u src _ hu => ?_) ⟨h, rfl⟩
    exact (hu.1.removeSource src).mono fun v hv => ⟨hv.1, hv.2.trans hu.2⟩
  · refine ⟨⟨h.sorted, h.slots, fun y => ?_⟩, rfl⟩
    refine (h.good y).remove le_rfl le_rfl fun hn => ?_
    rcases eq_or_ne y x with rfl | hy
    · simp only [Function.update_self] at hn
      cases hn
    · simp only [Function.update_of_ne hy] at hn
      exact hn
  · exact (ends_require trivial).bind fun _ _ => ⟨h, rfl⟩
  · exact ⟨h, rfl⟩

/-- **An instruction is squashed**: it leaves if it is in the queue still. -/
theorem Accounted.squashInst (h : Accounted p w) (hx : x ∈ w.entered)
    (hiq : (w.status x).squashedInIQ = false) :
    Ends (fun u => Accounted p u ∧ u.entered = w.entered ∧ u.instList = w.instList) (fun _ => True)
      (w.squashInst p x) := by
  have hleave : Ends (fun u => Accounted p u ∧ u.entered = w.entered ∧ u.instList = w.instList)
      (fun _ => True) (w.leave p x) := by
    unfold leave
    split
    next hunfinished =>
      refine h.inside.unregister.bind fun u ⟨hu, hstatus⟩ => ?_
      have hentered : u.entered = w.entered := congrArg Slots.entered hu.slots
      have hlist : u.instList = w.instList := congrArg Slots.instList hu.slots
      have hx' : u.status x = w.status x := congrFun hstatus x
      obtain ⟨hfreed, hgood⟩ := (hu.good x).leave
        (List.contains_iff_mem.mpr (hentered ▸ hx) : (view p u x).entered = true)
        (by rw [view, hx']; exact hunfinished) (by rw [view, hx']; exact hiq)
      have hbooks : Books p u.slots := hu.slots ▸ h.books
      refine ⟨⟨hu.sorted, hbooks.freeSlot (not_mem_freed hfreed), ?_⟩, hentered, hlist⟩
      refine hu.good.of_view x ?_ fun y hy => ?_
      · rw [view_freeSlot_self, view_setStatus_self]
        exact hgood
      · rw [view_freeSlot_of_ne hy, view_setStatus_of_ne _ hy]
    next => exact ⟨h, rfl, rfl⟩
  refine hleave.bind fun u hu => ?_
  refine Ends.foldlM (fun v dest _ hv => ?_) hu
  unfold clearProducer
  split
  · exact hv
  · exact (ends_require trivial).bind fun _ _ =>
      ⟨⟨hv.1.sorted, hv.1.books, hv.1.good⟩, hv.2⟩

/-- The loop of `doSquash`. -/
theorem Accounted.squashLoop (tid : Fin threads) (sn : InstSeqNum) {l : List InstSeqNum}
    (h : Accounted p w) (hl : ∀ x ∈ l, x ∈ w.entered) :
    Ends (fun r => Accounted p r.1 ∧ r.1.entered = w.entered ∧ r.1.instList = w.instList ∧
      ∀ x ∈ r.2, x ∈ l) (fun _ => True) (squashLoop p tid sn l w) := by
  induction l generalizing w with
  | nil => exact ⟨h, rfl, rfl, fun _ hx => hx⟩
  | cons x l ih =>
    have htail : ∀ y ∈ l, y ∈ w.entered := fun y hy => hl y (List.mem_cons_of_mem x hy)
    unfold InstructionQueue.squashLoop
    split
    next =>
      split
      next =>
        refine (ih h htail).bind ?_
        rintro r ⟨hr, hentered, hlist, hleft⟩
        refine ⟨hr, hentered, hlist, fun y hy => ?_⟩
        rcases List.mem_cons.mp hy with rfl | hy
        · exact List.mem_cons_self
        · exact List.mem_cons_of_mem x (hleft y hy)
      next hskip =>
        have hiq : (w.status x).squashedInIQ = false := by
          simp only [Bool.or_eq_true, not_or, Bool.not_eq_true] at hskip
          exact hskip.2
        refine (h.squashInst (hl x List.mem_cons_self) hiq).bind ?_
        rintro u ⟨hu, hentered, hlist⟩
        refine (ih hu fun y hy => hentered ▸ htail y hy).mono ?_
        rintro r ⟨hr, he, hi, hleft⟩
        exact ⟨hr, he.trans hentered, hi.trans hlist,
          fun y hy => List.mem_cons_of_mem x (hleft y hy)⟩
    next => exact ⟨h, rfl, rfl, fun _ hy => hy⟩

/-- **A thread is squashed.** -/
theorem Accounted.squash (h : Accounted p w) (tid : Fin threads) (sn : InstSeqNum) :
    Ends (Accounted p) (fun _ => True) (w.squash p tid sn) := by
  refine (h.squashLoop tid sn fun x hx => h.books.listed tid x (List.mem_reverse.mp hx)).bind
    fun r ⟨hr, hentered, hlist, hleft⟩ => ?_
  refine ⟨hr.sorted, ⟨hr.books.entered, hr.books.freed, hr.books.free, hr.books.counts,
    fun t x hx => ?_, hr.books.mem⟩, hr.good⟩
  by_cases ht : t = tid
  · subst ht
    simp only [slots, Function.update_self] at hx
    have hmem := hleft x (List.mem_reverse.mp hx)
    show x ∈ r.1.entered
    rw [hentered]
    exact h.books.listed t x (List.mem_reverse.mp hmem)
  · simp only [slots, Function.update_of_ne ht] at hx
    exact hr.books.listed t x hx

/-! ## Whole runs -/

/-- What the rest of the pipeline promises: an instruction is inserted once; only memory
instructions are handed back to be ready; and a memory access completes once, after it issued.
`addIfReady` is not called from outside. -/
def Promised (p : Params threads regs) (w : InstructionQueue threads regs) :
    Op threads regs → Prop
  | .insert x _ | .insertNonSpec x _ => x ∉ w.entered
  | .addIfReady _ => False
  | .addReadyMemInst x | .deferMemInst x => (p.code x).isMemRef = true
  | .blockMemInst x => (p.code x).isMemRef = true ∧ (w.status x).memOpDone = false
  | .wakeDependents x => (p.code x).isMemRef = true →
      x ∈ w.entered ∧ (w.status x).issued = true ∧ (w.status x).memOpDone = false
  | _ => True

theorem accounted_init : Accounted p (init p) where
  sorted := sorted_init
  books :=
    { entered := .nil
      freed := .nil
      free := rfl
      counts := fun _ => rfl
      listed := fun _ _ h => absurd h List.not_mem_nil
      mem := fun _ h => absurd h List.not_mem_nil }
  good x := by
    refine ⟨⟨fun h => absurd h Bool.false_ne_true, fun h => absurd h.1 Bool.false_ne_true⟩,
      fun h => absurd h Bool.false_ne_true, fun _ h => absurd h Bool.false_ne_true, fun _ => ?_⟩
    have hwaiting : (view p (init p) x).waiting = 0 := by
      simp [view, init, DependencyGraph.init]
    exact ⟨Nat.zero_le 1, fun h => absurd h (Nat.lt_irrefl 0), fun h => absurd hwaiting h.ne',
      fun h => absurd h Bool.false_ne_true⟩

/-- A memory instruction is put off, and waits in one more list. -/
theorem Books.mem_append (h : Books p w.slots) (hx : (p.code x).isMemRef = true)
    {l : List InstSeqNum} (hl : ∀ y ∈ l, y = x ∨ y ∈ w.slots.memInsts) :
    Books p { w.slots with memInsts := l } :=
  ⟨h.entered, h.freed, h.free, h.counts, h.listed, fun y hy =>
    (hl y hy).elim (fun heq => heq ▸ hx) (h.mem y)⟩

theorem Accounted.step (h : Accounted p w) (op : Op threads regs) (hop : Promised p w op) :
    Ends (Accounted p) (fun _ => True) (step p w op) := by
  cases op with
  | insert x readySrc => exact h.insert hop readySrc
  | insertNonSpec x readySrc => exact h.insertNonSpec hop readySrc
  | addIfReady x => exact hop.elim
  | addReadyMemInst x =>
    have hmem : (p.code x).isMemRef = true := hop
    obtain ⟨ready, hadd, hsorted, hgood⟩ := h.good.addReady h.sorted (x := x) fun hm =>
      absurd hmem (hm ▸ Bool.false_ne_true)
    rw [InstructionQueue.step, addReadyMemInst, InstructionQueue.addReady, hadd]
    exact ⟨hsorted, h.books, hgood⟩
  | scheduleReadyInsts fu =>
    have hrun := h.scheduleReadyInsts fu
    rw [InstructionQueue.step]
    cases hr : w.scheduleReadyInsts p fu with
    | ok r =>
      rw [hr] at hrun
      exact hrun
    | error e => trivial
  | scheduleNonSpec x => exact h.scheduleNonSpec
  | wakeDependents x => exact h.wakeDependents hop
  | deferMemInst x =>
    refine ⟨h.sorted, h.books.mem_append hop fun y hy => ?_, h.good⟩
    simp only [slots, List.mem_append, List.mem_singleton] at hy ⊢
    tauto
  | blockMemInst x =>
    refine ⟨h.sorted, h.books.mem_append hop.1 fun y hy => ?_, ?_⟩
    · simp only [slots, blockMemInst, setStatus, List.mem_append, List.mem_singleton] at hy ⊢
      tauto
    · exact h.good.setStatus (fun s => { s with issued := false, canIssue := false })
        ((h.good x).block hop.1 hop.2)
  | rescheduleMemInst x =>
    refine ⟨h.sorted, h.books, h.good.setStatus _ ?_⟩
    exact (h.good x).setStatus rfl rfl rfl id rfl fun h => absurd h Bool.false_ne_true
  | holdMemInst x =>
    refine ⟨h.sorted, h.books, h.good.setStatus _ ?_⟩
    exact (h.good x).setStatus rfl rfl rfl id rfl fun h => absurd h Bool.false_ne_true
  | cacheUnblocked =>
    refine ⟨h.sorted, ⟨h.books.entered, h.books.freed, h.books.free, h.books.counts,
      h.books.listed, fun x hx => h.books.mem x ?_⟩, h.good⟩
    simp only [slots, cacheUnblocked, List.nil_append, List.mem_append] at hx ⊢
    tauto
  | commit x tid =>
    refine ⟨h.sorted, ⟨h.books.entered, h.books.freed, h.books.free, h.books.counts,
      fun t y hy => h.books.listed t y ?_, h.books.mem⟩, h.good⟩
    by_cases ht : t = tid
    · subst ht
      simp only [slots, InstructionQueue.commit, Function.update_self] at hy
      exact (List.dropWhile_sublist _).mem hy
    · simpa only [slots, InstructionQueue.commit, Function.update_of_ne ht] using hy
  | squash tid sn => exact h.squash tid sn
  | processFUCompletion x => exact ⟨h.sorted, h.books, h.good⟩
  | getInstToExecute => exact (ends_require trivial).bind fun _ _ => ⟨h.sorted, h.books, h.good⟩
  | raiseFlag x flag =>
    refine ⟨h.sorted, h.books, h.good.setStatus _ ?_⟩
    cases flag with
    | Squashed => exact (h.good x).setStatus rfl rfl rfl (fun _ => rfl) rfl id
    | Completed => exact (h.good x).setStatus rfl rfl rfl id rfl id
    | Faulted => exact (h.good x).setStatus rfl rfl rfl id rfl id
    | TranslationCompleted => exact (h.good x).setStatus rfl rfl rfl id rfl id
  | pinReg idx n => exact ⟨h.sorted, h.books, h.good⟩

/-- The books count what is in its slot. -/
theorem Accounted.count_eq (h : Accounted p w) (tid : Fin threads) : w.count tid =
    ((ofThread p tid w.entered).filter fun x => occupies (p.code x) (w.status x)).length := by
  have hfreed : ∀ x, x ∈ w.freed ↔ x ∈ w.entered ∧ occupies (p.code x) (w.status x) = false :=
    fun x => by simpa [view] using (h.good x).freed_iff
  have hperm : (ofThread p tid w.freed).Perm
      ((ofThread p tid w.entered).filter fun x => !occupies (p.code x) (w.status x)) := by
    refine (List.perm_ext_iff_of_nodup (h.books.freed.filter _)
      ((h.books.entered.filter _).filter _)).mpr fun x => ?_
    simp only [List.mem_filter, decide_eq_true_eq, Bool.not_eq_true',
      show w.slots.freed = w.freed from rfl, show w.slots.entered = w.entered from rfl, hfreed]
    tauto
  have hsplit := List.length_eq_length_filter_add (l := ofThread p tid w.entered)
    fun x => occupies (p.code x) (w.status x)
  have hcounts : w.count tid + (ofThread p tid w.freed).length =
      (ofThread p tid w.entered).length := h.books.counts tid
  rw [hperm.length_eq] at hcounts
  omega

end InstructionQueue

end Gem5.Iq
