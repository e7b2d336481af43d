/-
# What the chains of the dependency graph hold

The dependency graph of the instruction queue over whole runs.  An instruction in the queue has one
node for each of its source registers that is not written yet, and nothing else has nodes.

The queue forgets which instructions it put into the graph: `IEW::dispatchInsts` chooses between
`insert`, which puts them in, and `insertNonSpec`, and a squash takes those out that pass another
test (`DynInst.removedFromGraph`).  The two agree on every combination of flags that the instruction
sets build (`DynInst.Decodes`): an atomic access is neither a load nor a store, and a load or a store
has both barrier flags or none.  So the walks of a squash find what they look for, and the chains
are exact (`chains_exact`).
-/
import Gem5.SlotAccounting

namespace Gem5.Iq

open Runs ReadyLists

/-! ## Dispatch -/

namespace DynInst

variable {threads regs : ℕ}

/-- What `IEW::dispatchInsts` decides about an instruction that is not a nop: whether `insert` puts
it in (`add_to_iq`), or `insertNonSpec` or `insertBarrier`. -/
def addToIQ (inst : DynInst threads regs) : Bool :=
  let add_to_iq :=
    if inst.isAtomic then false
    else if inst.isLoad then true
    else if inst.isStore then !inst.isStoreConditional
    else if inst.isReadBarrier || inst.isWriteBarrier then false
    else true
  add_to_iq && !inst.isNonSpeculative

/-- The combinations of flags that the decoders under `arch/` build.  The constructors of the atomic
accesses clear `IsLoad` and `IsStore` (`AmoOpConstructor`, `AtomicMemOpRMWConstructor`); a load that
acquires or a store that releases raises both barrier flags and not `IsNonSpeculative`; a fence is
no memory access; and only plain stores are store conditionals. -/
structure Decodes (inst : DynInst threads regs) : Prop where
  atomic : inst.isAtomic = true → inst.isLoad = false ∧ inst.isStore = false
  barriers : (inst.isLoad || inst.isStore) = true → inst.isReadBarrier = inst.isWriteBarrier
  speculative : (inst.isLoad || inst.isStore) = true → inst.isReadBarrier = true →
    inst.isNonSpeculative = false
  conditional : inst.isStoreConditional = true → inst.isStore = true ∧ inst.isLoad = false

/-- **A squash takes out of the graph what dispatch put in.** -/
theorem Decodes.removedFromGraph {inst : DynInst threads regs} (h : inst.Decodes) :
    inst.removedFromGraph = inst.addToIQ := by
  obtain ⟨hatomic, hbarriers, hspeculative, hconditional⟩ := h
  unfold DynInst.removedFromGraph addToIQ isFullMemBarrier
  revert hatomic hbarriers hspeculative hconditional
  cases inst.isAtomic with
  | true =>
    -- neither a load nor a store: `is_acq_rel` is false
    intro h _ _ _
    simp [h]
  | false =>
    cases inst.isLoad <;> cases inst.isStore <;> cases inst.isReadBarrier <;>
      cases inst.isWriteBarrier <;> cases inst.isStoreConditional <;> simp

end DynInst

namespace InstructionQueue

variable {threads regs : ℕ} {p : Params threads regs} {w w' : InstructionQueue threads regs}
  {x y : InstSeqNum}

/-! ## Exactness -/

/-- A source operand on a register that has to be waited for: it is renamed, and was not ready. -/
def awaits (w : InstructionQueue threads regs) (x : InstSeqNum) (idx : Fin regs)
    (src : PhysReg regs × ℕ) : Bool :=
  src.1.flatIndex = idx && !src.1.isFixedMapping && !(w.status x).readySrcIdx src.2

/-- The source operands of an instruction on a register that were not ready. -/
def unready (p : Params threads regs) (w : InstructionQueue threads regs) (x : InstSeqNum)
    (idx : Fin regs) : ℕ :=
  (p.code x).srcRegs.zipIdx.countP (awaits w x idx)

/-- The instruction is in the list of its thread. -/
def InList (p : Params threads regs) (w : InstructionQueue threads regs) (x : InstSeqNum) : Prop :=
  x ∈ w.instList (p.code x).threadNumber

instance : DecidablePred (InList p w) :=
  fun x => inferInstanceAs (Decidable (x ∈ w.instList (p.code x).threadNumber))

/-- The chains, when the instructions of `L` are those in the queue: each has a node for each
operand on a register that is not written, and there are no other nodes. -/
structure Chains (p : Params threads regs) (L : InstSeqNum → Prop)
    (w : InstructionQueue threads regs) : Prop where
  waiting : ∀ idx x, L x → w.inGraph x = true → w.regScoreboard idx = false →
    (w.dependGraph.chain idx).count x = unready p w x idx
  absent : ∀ idx x, ¬(L x ∧ w.inGraph x = true ∧ w.regScoreboard idx = false) →
    x ∉ w.dependGraph.chain idx
  counted : w.dependGraph.Counted
  done : ∀ idx x, (w.status x).memOpDone = true → x ∉ w.dependGraph.chain idx

/-- What an operation leaves alone that has nothing to do with the graph. -/
structure SameGraph (w w' : InstructionQueue threads regs) : Prop where
  dependGraph : w'.dependGraph = w.dependGraph
  inGraph : w'.inGraph = w.inGraph
  regScoreboard : w'.regScoreboard = w.regScoreboard
  instList : w'.instList = w.instList
  entered : w'.entered = w.entered
  readySrcIdx : ∀ x, (w'.status x).readySrcIdx = (w.status x).readySrcIdx
  memOpDone : ∀ x, (w'.status x).memOpDone = (w.status x).memOpDone

theorem SameGraph.refl (w : InstructionQueue threads regs) : SameGraph w w :=
  ⟨rfl, rfl, rfl, rfl, rfl, fun _ => rfl, fun _ => rfl⟩

variable {u : InstructionQueue threads regs} {idx : Fin regs} {src : PhysReg regs × ℕ}

theorem SameGraph.trans (h : SameGraph w u) (h' : SameGraph u w') : SameGraph w w' :=
  ⟨h'.dependGraph.trans h.dependGraph, h'.inGraph.trans h.inGraph,
    h'.regScoreboard.trans h.regScoreboard, h'.instList.trans h.instList,
    h'.entered.trans h.entered, fun x => (h'.readySrcIdx x).trans (h.readySrcIdx x),
    fun x => (h'.memOpDone x).trans (h.memOpDone x)⟩

/-- A write to flags of an instruction other than its ready operands and `memOpDone`. -/
theorem sameGraph_setStatus (f : Status → Status)
    (hready : (f (w.status x)).readySrcIdx = (w.status x).readySrcIdx)
    (hdone : (f (w.status x)).memOpDone = (w.status x).memOpDone) :
    SameGraph w (w.setStatus x f) := by
  refine ⟨rfl, rfl, rfl, rfl, rfl, fun y => ?_, fun y => ?_⟩
  all_goals
    rcases eq_or_ne y x with rfl | hy
    · rw [setStatus_self]
      first | exact hready | exact hdone
    · rw [setStatus_of_ne _ hy]

theorem awaits_congr (h : (w'.status x).readySrcIdx = (w.status x).readySrcIdx) :
    awaits w' x = awaits w x := by
  funext idx src
  rw [awaits, awaits, h]

theorem unready_congr (h : (w'.status x).readySrcIdx = (w.status x).readySrcIdx) :
    unready p w' x = unready p w x := by
  funext idx
  rw [unready, unready, awaits_congr h]

variable {L : InstSeqNum → Prop}

theorem Chains.of_same (h : Chains p L w) (hs : SameGraph w w') : Chains p L w' where
  waiting idx x hL hin hsb := by
    rw [hs.dependGraph, unready_congr (hs.readySrcIdx x)]
    exact h.waiting idx x hL (hs.inGraph ▸ hin) (hs.regScoreboard ▸ hsb)
  absent idx x hnot := by
    rw [hs.dependGraph]
    rw [hs.inGraph, hs.regScoreboard] at hnot
    exact h.absent idx x hnot
  counted := hs.dependGraph ▸ h.counted
  done idx x hd := by
    rw [hs.dependGraph]
    rw [hs.memOpDone] at hd
    exact h.done idx x hd

theorem inList_congr (h : w'.instList = w.instList) : InList p w' = InList p w := by
  funext x
  rw [InList, InList, h]

/-- No instruction has nodes in the chain of a register that is written. -/
theorem Chains.chain_eq_nil (h : Chains p L w) (hsb : w.regScoreboard idx = true) :
    w.dependGraph.chain idx = [] :=
  List.eq_nil_iff_forall_not_mem.mpr fun x =>
    h.absent idx x fun hall => absurd hall.2.2 (hsb ▸ Bool.true_eq_false_eq_False.elim)

/-! ## Operations outside the graph -/

/-- A fault other than the two of the dependency graph. -/
def GraphHolds (e : Fault) : Prop := e ≠ .removePastEnd ∧ e ≠ .graphNotEmpty

theorem addReady_same (x : InstSeqNum) :
    Ends (SameGraph w) GraphHolds (w.addReady p x) := by
  unfold addReady
  cases w.ready.add (p.code x).opClass x with
  | ok ready => exact ⟨rfl, rfl, rfl, rfl, rfl, fun _ => rfl, fun _ => rfl⟩
  | error f => exact ⟨nofun, nofun⟩

theorem addIfReady_same (x : InstSeqNum) :
    Ends (SameGraph w) GraphHolds (w.addIfReady p x) := by
  unfold addIfReady
  split
  · split
    · exact .refl w
    · exact addReady_same x
  · exact .refl w

theorem offer_same (x : InstSeqNum) : Ends (SameGraph w) GraphHolds (w.offer p x) := by
  unfold offer
  split
  · exact .refl w
  · exact addIfReady_same x

theorem sendToExecute_same (x : InstSeqNum) (idx : FUAnswer) :
    SameGraph w (w.sendToExecute x idx) := by
  unfold sendToExecute
  split <;> exact ⟨rfl, rfl, rfl, rfl, rfl, fun _ => rfl, fun _ => rfl⟩

theorem freeSlot_same (x : InstSeqNum) : SameGraph w (w.freeSlot p x) :=
  ⟨rfl, rfl, rfl, rfl, rfl, fun _ => rfl, fun _ => rfl⟩

theorem markIssued_same (x : InstSeqNum) : SameGraph w (w.markIssued p x) := by
  unfold markIssued
  have hissued := sameGraph_setStatus (w := w) (x := x) (fun s => { s with issued := true }) rfl rfl
  simp only
  split
  · exact hissued
  · exact (hissued.trans (freeSlot_same x)).trans (sameGraph_setStatus _ rfl rfl)

theorem takeTop_same (i : ℕ) (c : OpClass) :
    Ends (fun ready => SameGraph w { w with ready }) GraphHolds
      ((w.ready.takeTop i c).mapError Fault.ready) := by
  cases w.ready.takeTop i c with
  | ok ready => exact ⟨rfl, rfl, rfl, rfl, rfl, fun _ => rfl, fun _ => rfl⟩
  | error f => exact ⟨nofun, nofun⟩

theorem issue_same (i : ℕ) (c : OpClass) (x : InstSeqNum) (idx : FUAnswer) :
    Ends (SameGraph w) GraphHolds (w.issue p i c x idx) := by
  refine (takeTop_same (w := w.sendToExecute x idx) i c).bind fun ready hready => ?_
  exact ((sendToExecute_same x idx).trans hready).trans (markIssued_same x)

theorem scheduleLoop_same (fu : ℕ → FUAnswer) {fuel i : ℕ} (visit : ℕ)
    (issued : List InstSeqNum) :
    Ends (fun r => SameGraph w r.1) GraphHolds (scheduleLoop p fu fuel visit i issued w) := by
  induction fuel generalizing visit i issued w with
  | zero => exact ⟨nofun, nofun⟩
  | succ fuel ih =>
    unfold scheduleLoop
    split
    next =>
      split
      next => exact .refl w
      next e he =>
        have htop : Ends (fun _ => True) GraphHolds
            ((w.ready.top e.queueType).mapError Fault.ready) := by
          cases w.ready.top e.queueType with
          | ok x => trivial
          | error f => exact ⟨nofun, nofun⟩
        refine htop.bind fun x _ => (ends_require ⟨nofun, nofun⟩).bind fun _ _ => ?_
        split
        next =>
          refine (takeTop_same i e.queueType).bind fun ready hready => ?_
          exact (ih _ _).mono fun r hr => hready.trans hr
        next =>
          generalize (if e.queueType = No_OpClass then FUAnswer.NoCapableFU else fu visit) = idx
          simp only
          split
          next => exact ih _ _
          next =>
            refine (issue_same i e.queueType x idx).bind fun u hu => ?_
            exact (ih _ _).mono fun r hr => hu.trans hr
    next => exact .refl w

theorem scheduleReadyInsts_same (fu : ℕ → FUAnswer) :
    Ends (fun r => SameGraph w r.1) GraphHolds (w.scheduleReadyInsts p fu) := by
  have hadd : Ends (SameGraph w) GraphHolds (w.addMemInsts p) := by
    refine Ends.foldlM (fun u x _ hu => ?_) ?_
    · exact (addReady_same x).mono fun v hv => hu.trans hv
    · exact ⟨rfl, rfl, rfl, rfl, rfl, fun _ => rfl, fun _ => rfl⟩
  refine hadd.bind fun u hu => ?_
  exact (scheduleLoop_same fu 0 []).mono fun r hr => hu.trans hr

theorem scheduleNonSpec_same (x : InstSeqNum) :
    Ends (SameGraph w) GraphHolds (w.scheduleNonSpec p x) := by
  refine (ends_require ⟨nofun, nofun⟩).bind fun _ _ => ?_
  refine (offer_same x).bind fun u hu => ?_
  have hset := sameGraph_setStatus (w := w) (x := x)
    (fun s => { s with atCommit := true, canIssue := true }) rfl rfl
  have hall := hset.trans hu
  exact ⟨hall.dependGraph, hall.inGraph, hall.regScoreboard, hall.instList, hall.entered,
    hall.readySrcIdx, hall.memOpDone⟩

/-! ## Insertion -/

/-- What `addToDependents` leaves alone. -/
structure OnlyDependents (x : InstSeqNum) (w u : InstructionQueue threads regs) : Prop where
  count : ∀ idx y, y ≠ x → (u.dependGraph.chain idx).count y = (w.dependGraph.chain idx).count y
  status : ∀ y, y ≠ x → u.status y = w.status y
  memOpDone : (u.status x).memOpDone = (w.status x).memOpDone
  counted : w.dependGraph.Counted → u.dependGraph.Counted
  inGraph : u.inGraph = w.inGraph
  regScoreboard : u.regScoreboard = w.regScoreboard
  instList : u.instList = w.instList
  entered : u.entered = w.entered

theorem OnlyDependents.refl (x : InstSeqNum) (w : InstructionQueue threads regs) :
    OnlyDependents x w w :=
  ⟨fun _ _ _ => rfl, fun _ _ => rfl, rfl, id, rfl, rfl, rfl, rfl⟩

theorem OnlyDependents.trans (h : OnlyDependents x w u) (h' : OnlyDependents x u w') :
    OnlyDependents x w w' :=
  ⟨fun idx y hy => (h'.count idx y hy).trans (h.count idx y hy),
    fun y hy => (h'.status y hy).trans (h.status y hy), h'.memOpDone.trans h.memOpDone,
    h'.counted ∘ h.counted, h'.inGraph.trans h.inGraph, h'.regScoreboard.trans h.regScoreboard,
    h'.instList.trans h.instList, h'.entered.trans h.entered⟩

/-- Whether an operand is ready once `addToDependents` looked at it. -/
def readyOnArrival (w : InstructionQueue threads regs) (x : InstSeqNum) (src : PhysReg regs × ℕ) :
    Bool :=
  (w.status x).readySrcIdx src.2 || (!src.1.isFixedMapping && w.regScoreboard src.1.flatIndex)

/-- One operand: it gets a node if it is to be waited for, and is ready if its register was written
in the meantime. -/
theorem addDependent_spec (src : PhysReg regs × ℕ) :
    (∀ idx, ((addDependent p x w src).dependGraph.chain idx).count x =
      (w.dependGraph.chain idx).count x +
        if w.regScoreboard idx || !awaits w x idx src then 0 else 1) ∧
    ((addDependent p x w src).status x).readySrcIdx =
      Function.update (w.status x).readySrcIdx src.2 (readyOnArrival w x src) ∧
    OnlyDependents x w (addDependent p x w src) := by
  unfold addDependent
  split
  next hready =>
    refine ⟨fun idx => ?_, ?_, .refl x w⟩
    · simp [awaits, hready]
    · rw [readyOnArrival, hready, Bool.true_or, ← hready, Function.update_eq_self]
  next hready =>
    rw [Bool.not_eq_true] at hready
    split
    next hfixed =>
      refine ⟨fun idx => ?_, ?_, .refl x w⟩
      · simp [awaits, hfixed]
      · rw [readyOnArrival, hfixed, Bool.not_true, Bool.false_and, Bool.or_false,
          Function.update_eq_self]
    next hfixed =>
      rw [Bool.not_eq_true] at hfixed
      split
      next hsb =>
        refine ⟨fun idx => ?_, ?_, fun _ _ _ => rfl, fun y hy => setStatus_of_ne _ hy, ?_, id,
          rfl, rfl, rfl, rfl⟩
        · by_cases hidx : src.1.flatIndex = idx
          · simp [setStatus, awaits, ← hidx, hsb]
          · simp [setStatus, awaits, hidx]
        · rw [setStatus_self, readyOnArrival, hready, hfixed, hsb]
          rfl
        · rw [setStatus_self]
          rfl
      next hsb =>
        rw [Bool.not_eq_true] at hsb
        refine ⟨fun idx => ?_, ?_, fun idx y hy => ?_, fun _ _ => rfl, rfl, .insert, rfl, rfl,
          rfl, rfl⟩
        · by_cases hidx : src.1.flatIndex = idx
          · subst hidx
            simp [awaits, hready, hfixed, hsb]
          · have hne : (w.dependGraph.insert src.1.flatIndex x).chain idx =
                w.dependGraph.chain idx := Function.update_of_ne (Ne.symm hidx) ..
            simp [awaits, hidx, hne]
        · rw [readyOnArrival, hsb, Bool.and_false, Bool.or_false, Function.update_eq_self]
        · by_cases hidx : src.1.flatIndex = idx
          · subst hidx
            rw [DependencyGraph.insert_chain_self, List.count_cons_of_ne hy.symm]
          · have hne : (w.dependGraph.insert src.1.flatIndex x).chain idx =
                w.dependGraph.chain idx := Function.update_of_ne (Ne.symm hidx) ..
            rw [hne]

/-- The operands `l`, the first of which is operand `k`. -/
theorem addDependents_spec (l : List (PhysReg regs)) (k : ℕ) :
    let u := (l.zipIdx k).foldl (addDependent p x) w
    (∀ idx, (u.dependGraph.chain idx).count x = (w.dependGraph.chain idx).count x +
      if w.regScoreboard idx then 0 else (l.zipIdx k).countP (awaits w x idx)) ∧
    (∀ src ∈ l.zipIdx k, (u.status x).readySrcIdx src.2 = readyOnArrival w x src) ∧
    (∀ i, i < k → (u.status x).readySrcIdx i = (w.status x).readySrcIdx i) ∧
    OnlyDependents x w u := by
  induction l generalizing w k with
  | nil =>
    refine ⟨fun idx => ?_, fun _ h => absurd h List.not_mem_nil, fun _ _ => rfl, .refl x w⟩
    simp
  | cons src l ih =>
    intro u
    obtain ⟨hcount, hready, hstep⟩ := addDependent_spec (p := p) (w := w) (x := x) (src, k)
    obtain ⟨ihcount, ihready, ihbefore, ihstep⟩ :=
      ih (w := addDependent p x w (src, k)) (k + 1)
    -- the operands after the first are looked at as if it had not been
    have hlater : ∀ s ∈ l.zipIdx (k + 1),
        ((addDependent p x w (src, k)).status x).readySrcIdx s.2 =
          (w.status x).readySrcIdx s.2 := fun s hs => by
      rw [hready, Function.update_of_ne (Nat.ne_of_gt (List.le_snd_of_mem_zipIdx hs))]
    refine ⟨fun idx => ?_, fun s hs => ?_, fun i hi => ?_, hstep.trans ihstep⟩
    · have hrest : (l.zipIdx (k + 1)).countP (awaits (addDependent p x w (src, k)) x idx) =
          (l.zipIdx (k + 1)).countP (awaits w x idx) :=
        List.countP_congr fun s hs => by rw [awaits, awaits, hlater s hs]
      rw [List.zipIdx_cons, List.countP_cons]
      refine (ihcount idx).trans ?_
      rw [hcount idx, hrest, hstep.regScoreboard]
      cases w.regScoreboard idx <;> cases awaits w x idx (src, k) <;> simp
      omega
    · rw [List.zipIdx_cons] at hs
      rcases List.mem_cons.mp hs with rfl | hs
      · refine (ihbefore k (Nat.lt_succ_self k)).trans ?_
        rw [hready, Function.update_self]
      · refine (ihready s hs).trans ?_
        rw [readyOnArrival, hlater s hs, hstep.regScoreboard]
        rfl
    · refine (ihbefore i (Nat.lt_succ_of_lt hi)).trans ?_
      rw [hready, Function.update_of_ne hi.ne]

/-- The state of the graph in a queue whose lists are in order, and whose instructions are in the
graph as dispatch decided. -/
structure Exact (p : Params threads regs) (w : InstructionQueue threads regs) : Prop where
  chains : Chains p (InList p w) w
  marked : ∀ x, w.inGraph x = true → x ∈ w.entered
  sorted : ∀ tid, (w.instList tid).Pairwise (· < ·)
  threads : ∀ tid, ∀ x ∈ w.instList tid, (p.code x).threadNumber = tid
  dispatched : ∀ x, InList p w x → (p.code x).Decodes ∧ w.inGraph x = (p.code x).addToIQ

/-- The registers that an instruction writes: no instruction of `L` has to wait for one of them. -/
def Unawaited (p : Params threads regs) (L : InstSeqNum → Prop)
    (w : InstructionQueue threads regs) (dests : List (PhysReg regs)) : Prop :=
  ∀ dest ∈ dests, dest.isFixedMapping = false →
    ∀ y, L y → w.inGraph y = true → unready p w y dest.flatIndex = 0

/-- **An instruction becomes the producer of its registers**: their chains are empty. -/
theorem Chains.addProducers {dests : List (PhysReg regs)} (h : Chains p L w)
    (hfree : Unawaited p L w dests) :
    Ends (fun u => Chains p L u ∧ u.inGraph = w.inGraph ∧ u.instList = w.instList ∧
      u.entered = w.entered) GraphHolds (dests.foldlM (addProducer x) w) := by
  have hkept : ∀ u : InstructionQueue threads regs,
      (Chains p L u ∧ u.status = w.status) ∧ u.inGraph = w.inGraph ∧ u.instList = w.instList ∧
        u.entered = w.entered → ∀ dest ∈ dests,
      Ends (fun v => (Chains p L v ∧ v.status = w.status) ∧ v.inGraph = w.inGraph ∧
        v.instList = w.instList ∧ v.entered = w.entered) GraphHolds (addProducer x u dest) := by
    rintro u ⟨⟨hu, hstatus⟩, hin, hlist⟩ dest hdest
    unfold addProducer
    split
    next => exact ⟨⟨hu, hstatus⟩, hin, hlist⟩
    next hfixed =>
      rw [Bool.not_eq_true] at hfixed
      have hunready : ∀ y, L y → u.inGraph y = true → unready p u y dest.flatIndex = 0 :=
        fun y hy hg => by
          rw [unready_congr (congrArg Status.readySrcIdx (congrFun hstatus y))]
          exact hfree dest hdest hfixed y hy (hin ▸ hg)
      have hnil : u.dependGraph.chain dest.flatIndex = [] := by
        refine List.eq_nil_iff_forall_not_mem.mpr fun y hy => ?_
        by_cases hall : L y ∧ u.inGraph y = true ∧ u.regScoreboard dest.flatIndex = false
        · have hcount := hu.waiting _ y hall.1 hall.2.1 hall.2.2
          rw [hunready y hall.1 hall.2.1] at hcount
          exact List.count_eq_zero.mp hcount hy
        · exact hu.absent _ y hall hy
      rw [if_pos (by rw [hnil]; rfl)]
      refine ⟨⟨⟨fun idx y hL hg hsb => ?_, fun idx y hnot => ?_, hu.counted, hu.done⟩, hstatus⟩,
        hin, hlist⟩
      · by_cases hidx : idx = dest.flatIndex
        · subst hidx
          have hzero := hunready y hL hg
          show (u.dependGraph.chain dest.flatIndex).count y = unready p u y dest.flatIndex
          rw [hzero, hnil, List.count_nil]
        · simp only [Function.update_of_ne hidx] at hsb
          exact hu.waiting idx y hL hg hsb
      · by_cases hidx : idx = dest.flatIndex
        · subst hidx
          show y ∉ u.dependGraph.chain dest.flatIndex
          rw [hnil]
          exact List.not_mem_nil
        · simp only [Function.update_of_ne hidx] at hnot
          exact hu.absent idx y hnot
  refine (Ends.foldlM (fun u dest hdest hu => hkept u hu dest hdest)
    ⟨⟨h, rfl⟩, rfl, rfl, rfl⟩).mono fun u hu => ?_
  exact ⟨hu.1.1, hu.2⟩

/-- An instruction took a slot: it is the last of its thread, with the flags of rename. -/
structure Entered (p : Params threads regs) (x : InstSeqNum) (readySrc : ℕ → Bool)
    (w u : InstructionQueue threads regs) : Prop where
  dependGraph : u.dependGraph = w.dependGraph
  inGraph : u.inGraph = w.inGraph
  regScoreboard : u.regScoreboard = w.regScoreboard
  instList : u.instList = Function.update w.instList (p.code x).threadNumber
    (w.instList (p.code x).threadNumber ++ [x])
  readySrcIdx : (u.status x).readySrcIdx = readySrc
  memOpDone : (u.status x).memOpDone = false
  status : ∀ y, y ≠ x → u.status y = w.status y
  entered : u.entered = w.entered ++ [x]

theorem enter_entered (readySrc : ℕ → Bool) :
    Ends (Entered p x readySrc w) GraphHolds (w.enter p x readySrc) := by
  refine (ends_require ⟨nofun, nofun⟩).bind fun _ _ => ?_
  refine ⟨rfl, rfl, rfl, rfl, ?_, ?_, fun y hy => Function.update_of_ne hy .., rfl⟩
  · simp only [Function.update_self, Status.renamed]
  · simp only [Function.update_self, Status.renamed]

namespace Entered

variable {readySrc : ℕ → Bool} {u : InstructionQueue threads regs}

theorem inList_self (h : Entered p x readySrc w u) : InList p u x := by
  rw [InList, h.instList, Function.update_self]
  exact List.mem_append_right _ List.mem_cons_self

theorem inList_iff (h : Entered p x readySrc w u) (hy : y ≠ x) : InList p u y ↔ InList p w y := by
  rw [InList, InList, h.instList]
  by_cases ht : (p.code y).threadNumber = (p.code x).threadNumber
  · rw [ht, Function.update_self, List.mem_append, List.mem_singleton, or_iff_left hy]
  · rw [Function.update_of_ne ht]

theorem unready_eq (h : Entered p x readySrc w u) (hy : y ≠ x) : unready p u y = unready p w y :=
  unready_congr (congrArg Status.readySrcIdx (h.status y hy))

/-- The lists stay in order. -/
theorem lists (h : Entered p x readySrc w u) (hw : Exact p w)
    (hyoung : ∀ y ∈ w.instList (p.code x).threadNumber, y < x) :
    (∀ tid, (u.instList tid).Pairwise (· < ·)) ∧
    ∀ tid, ∀ y ∈ u.instList tid, (p.code y).threadNumber = tid := by
  rw [h.instList]
  refine ⟨fun tid => ?_, fun tid y hy => ?_⟩
  · by_cases ht : tid = (p.code x).threadNumber
    · subst ht
      rw [Function.update_self, List.pairwise_append]
      exact ⟨hw.sorted _, List.pairwise_singleton _ _,
        fun y hy z hz => List.mem_singleton.mp hz ▸ hyoung y hy⟩
    · rw [Function.update_of_ne ht]
      exact hw.sorted tid
  · by_cases ht : tid = (p.code x).threadNumber
    · subst ht
      rw [Function.update_self] at hy
      rcases List.mem_append.mp hy with hy | hy
      · exact hw.threads _ y hy
      · rw [List.mem_singleton.mp hy]
    · rw [Function.update_of_ne ht] at hy
      exact hw.threads tid y hy

/-- The chains are those of before, as long as the instruction is not put into the graph. -/
theorem chains (h : Entered p x readySrc w u) (hw : Exact p w) (hx : x ∉ w.entered) :
    Chains p (InList p u) u := by
  have hunmarked : ¬w.inGraph x = true := fun hg => hx (hw.marked x hg)
  refine ⟨fun idx y hL hg hsb => ?_, fun idx y hnot => ?_, h.dependGraph ▸ hw.chains.counted,
    fun idx y hd => ?_⟩
  · have hy : y ≠ x := by
      rintro rfl
      exact hunmarked (h.inGraph ▸ hg)
    rw [h.dependGraph, h.unready_eq hy]
    exact hw.chains.waiting idx y ((h.inList_iff hy).mp hL) (h.inGraph ▸ hg)
      (h.regScoreboard ▸ hsb)
  · rw [h.dependGraph]
    rw [h.inGraph, h.regScoreboard] at hnot
    refine hw.chains.absent idx y fun hall => ?_
    have hy : y ≠ x := by
      rintro rfl
      exact hunmarked hall.2.1
    exact hnot ⟨(h.inList_iff hy).mpr hall.1, hall.2⟩
  · rw [h.dependGraph]
    rcases eq_or_ne y x with rfl | hy
    · exact hw.chains.absent idx y fun hall => hunmarked hall.2.1
    · rw [h.status y hy] at hd
      exact hw.chains.done idx y hd

end Entered

/-- The instruction is put into the graph. -/
theorem Chains.addToDependents (h : Chains p L w) (hL : L x) (hunmarked : w.inGraph x = false)
    (hdone : (w.status x).memOpDone = false) :
    Chains p L (w.addToDependents p x) ∧
    (∀ idx, unready p (w.addToDependents p x) x idx ≤ unready p w x idx) ∧
    OnlyDependents x { w with inGraph := Function.update w.inGraph x true }
      (w.addToDependents p x) := by
  let v : InstructionQueue threads regs :=
    { w with inGraph := Function.update w.inGraph x true }
  obtain ⟨hcount, hready, -, hrest⟩ :=
    addDependents_spec (p := p) (w := v) (x := x) (p.code x).srcRegs 0
  have honly : OnlyDependents x v (w.addToDependents p x) := hrest
  have habsent : ∀ idx, (v.dependGraph.chain idx).count x = 0 := fun idx =>
    List.count_eq_zero.mpr (h.absent idx x fun hall =>
      absurd hall.2.1 (hunmarked ▸ Bool.false_ne_true))
  have hawaits : ∀ idx, ∀ src ∈ (p.code x).srcRegs.zipIdx,
      awaits (w.addToDependents p x) x idx src =
        (awaits w x idx src && !w.regScoreboard idx) := fun idx src hsrc => by
    have hsrc' : ((w.addToDependents p x).status x).readySrcIdx src.2 = readyOnArrival v x src :=
      hready src hsrc
    rw [awaits, awaits, hsrc', readyOnArrival]
    by_cases hidx : src.1.flatIndex = idx
    · subst hidx
      show (_ && !((w.status x).readySrcIdx src.2 || (_ && w.regScoreboard src.1.flatIndex))) = _
      cases src.1.isFixedMapping <;> cases (w.status x).readySrcIdx src.2 <;>
        cases w.regScoreboard src.1.flatIndex <;> simp
    · simp [hidx]
  have hinGraph : (w.addToDependents p x).inGraph = Function.update w.inGraph x true :=
    honly.inGraph
  have hscoreboard : (w.addToDependents p x).regScoreboard = w.regScoreboard :=
    honly.regScoreboard
  refine ⟨⟨fun idx y hy hg hsb => ?_, fun idx y hnot => ?_, honly.counted h.counted,
    fun idx y hd => ?_⟩, fun idx => ?_, honly⟩
  · rw [hscoreboard] at hsb
    rcases eq_or_ne y x with rfl | hne
    · refine (hcount idx).trans ?_
      rw [habsent, Nat.zero_add, if_neg (by simp [v, hsb])]
      refine List.countP_congr fun src hsrc => ?_
      rw [hawaits idx src hsrc, hsb, Bool.not_false, Bool.and_true]
      rfl
    · have hg' : w.inGraph y = true := by rwa [hinGraph, Function.update_of_ne hne] at hg
      refine (honly.count idx y hne).trans ?_
      rw [unready_congr (congrArg Status.readySrcIdx (honly.status y hne))]
      exact h.waiting idx y hy hg' hsb
  · rw [hinGraph, hscoreboard] at hnot
    refine List.count_eq_zero.mp ?_
    rcases eq_or_ne y x with rfl | hne
    · rw [Function.update_self] at hnot
      have hsb : w.regScoreboard idx = true := by
        simpa [hL] using hnot
      refine (hcount idx).trans ?_
      rw [habsent, if_pos (show v.regScoreboard idx = true from hsb)]
    · rw [Function.update_of_ne hne] at hnot
      refine (honly.count idx y hne).trans ?_
      exact List.count_eq_zero.mpr (h.absent idx y hnot)
  · refine List.count_eq_zero.mp ?_
    rcases eq_or_ne y x with rfl | hne
    · have hdone' : ((w.addToDependents p y).status y).memOpDone = false :=
        honly.memOpDone.trans hdone
      exact absurd hd (hdone' ▸ Bool.false_ne_true)
    · refine (honly.count idx y hne).trans ?_
      rw [honly.status y hne] at hd
      exact List.count_eq_zero.mpr (h.done idx y hd)
  · refine List.countP_mono_left fun src hsrc hpos => ?_
    rw [hawaits idx src hsrc, Bool.and_eq_true] at hpos
    exact hpos.1

/-! ## Rename -/

/-- An instruction reads a register that is renamed. -/
def reads (p : Params threads regs) (x : InstSeqNum) (idx : Fin regs) : Bool :=
  (p.code x).srcRegs.any fun src => src.flatIndex = idx && !src.isFixedMapping

theorem unready_eq_zero (h : reads p x idx = false) : unready p w x idx = 0 := by
  refine List.countP_eq_zero.mpr fun src hsrc hawaits => ?_
  have hread : reads p x idx = true := by
    refine List.any_eq_true.mpr ⟨src.1, List.fst_mem_of_mem_zipIdx hsrc, ?_⟩
    rw [awaits, Bool.and_eq_true] at hawaits
    exact hawaits.1
  exact absurd hread (h ▸ Bool.false_ne_true)

/-- **The rename discipline**: a thread inserts its instructions in their order, and a register is
given to an instruction only when no instruction in the queue reads it any more. -/
def Renames (p : Params threads regs) (w : InstructionQueue threads regs) (x : InstSeqNum) : Prop :=
  (∀ y ∈ w.instList (p.code x).threadNumber, y < x) ∧
  ∀ dest ∈ (p.code x).destRegs, dest.isFixedMapping = false →
    reads p x dest.flatIndex = false ∧
    ∀ tid, ∀ y ∈ w.instList tid, reads p y dest.flatIndex = false

/-- The discipline, once the instruction is in its list. -/
theorem Renames.unawaited (h : Renames p w x) {v : InstructionQueue threads regs}
    {readySrc : ℕ → Bool} (hu : Entered p x readySrc w u) :
    Unawaited p (InList p u) v (p.code x).destRegs := fun dest hdest hfixed y hy _ => by
  obtain ⟨hself, hothers⟩ := h.2 dest hdest hfixed
  refine unready_eq_zero ?_
  rcases eq_or_ne y x with rfl | hne
  · exact hself
  · exact hothers _ y ((hu.inList_iff hne).mp hy)

theorem countInst_same (x : InstSeqNum) : SameGraph w (w.countInst p x) :=
  ⟨rfl, rfl, rfl, rfl, rfl, fun _ => rfl, fun _ => rfl⟩

theorem Exact.of_same (h : Exact p w) (hs : SameGraph w w') : Exact p w' where
  chains := by
    rw [inList_congr hs.instList]
    exact h.chains.of_same hs
  marked x hx := by
    rw [hs.inGraph] at hx
    rw [hs.entered]
    exact h.marked x hx
  sorted := hs.instList ▸ h.sorted
  threads := hs.instList ▸ h.threads
  dispatched x hx := by
    rw [inList_congr hs.instList] at hx
    rw [hs.inGraph]
    exact h.dispatched x hx

/-- **An instruction is inserted.** -/
theorem Exact.insert (h : Exact p w) (hx : x ∉ w.entered) (hrename : Renames p w x)
    (hdecodes : (p.code x).Decodes) (hadd : (p.code x).addToIQ = true) (readySrc : ℕ → Bool) : Ends (Exact p) GraphHolds (w.insert p x readySrc) := by
  refine (enter_entered readySrc).bind fun u hu => ?_
  have hunmarked : u.inGraph x = false := by
    rw [hu.inGraph, ← Bool.not_eq_true]
    exact fun hg => hx (h.marked x hg)
  obtain ⟨hchains, -, honly⟩ := (hu.chains h hx).addToDependents hu.inList_self hunmarked
    hu.memOpDone
  refine (hchains.addProducers (hrename.unawaited hu)).bind fun v ⟨hv, hin, hlist, hentered⟩ => ?_
  have hlist' : v.instList = u.instList := hlist.trans honly.instList
  have hL : InList p v = InList p u := inList_congr hlist'
  obtain ⟨hsorted, hthreads⟩ := hu.lists h hrename.1
  have hexact : Exact p v := by
    refine ⟨hL ▸ hv, fun y hy => ?_, hlist' ▸ hsorted, hlist' ▸ hthreads, fun y hy => ?_⟩
    · rw [hentered, honly.entered, hu.entered, List.mem_append]
      rw [hin, honly.inGraph] at hy
      rcases eq_or_ne y x with rfl | hne
      · exact .inr List.mem_cons_self
      · simp only [Function.update_of_ne hne, hu.inGraph] at hy
        exact .inl (h.marked y hy)
    · rw [hL] at hy
      rw [hin, honly.inGraph]
      rcases eq_or_ne y x with rfl | hne
      · exact ⟨hdecodes, (Function.update_self ..).trans hadd.symm⟩
      · simp only [Function.update_of_ne hne, hu.inGraph]
        exact h.dispatched y ((hu.inList_iff hne).mp hy)
  exact (offer_same x).bind fun t ht => hexact.of_same (ht.trans (countInst_same x))

/-- **An instruction is inserted that waits for commit.** -/
theorem Exact.insertNonSpec (h : Exact p w) (hx : x ∉ w.entered) (hrename : Renames p w x)
    (hdecodes : (p.code x).Decodes) (hadd : (p.code x).addToIQ = false) (readySrc : ℕ → Bool) : Ends (Exact p) GraphHolds (w.insertNonSpec p x readySrc) := by
  let t : InstructionQueue threads regs :=
    { w with nonSpecInsts := Function.update w.nonSpecInsts x true }
  have ht : Exact p t := h.of_same ⟨rfl, rfl, rfl, rfl, rfl, fun _ => rfl, fun _ => rfl⟩
  have hx' : x ∉ t.entered := hx
  have hrename' : Renames p t x := hrename
  refine (enter_entered (w := t) readySrc).bind fun u hu => ?_
  refine ((hu.chains ht hx').addProducers (hrename'.unawaited hu)).bind
    fun v ⟨hv, hin, hlist, hentered⟩ => ?_
  have hL : InList p v = InList p u := inList_congr hlist
  obtain ⟨hsorted, hthreads⟩ := hu.lists ht hrename'.1
  have hexact : Exact p v := by
    refine ⟨hL ▸ hv, fun y hy => ?_, hlist ▸ hsorted, hlist ▸ hthreads, fun y hy => ?_⟩
    · rw [hentered, hu.entered, List.mem_append]
      rw [hin, hu.inGraph] at hy
      exact .inl (ht.marked y hy)
    · rw [hL] at hy
      rw [hin, hu.inGraph]
      rcases eq_or_ne y x with rfl | hne
      · have hunmarked : t.inGraph y = false := Bool.eq_false_iff.mpr fun hg => hx' (ht.marked y hg)
        exact ⟨hdecodes, hunmarked.trans hadd.symm⟩
      · exact ht.dispatched y ((hu.inList_iff hne).mp hy)
  exact hexact.of_same (countInst_same x)

/-! ## Completion and commit -/

/-- The chain of one register is taken apart. -/
structure Emptied (idx : Fin regs) (w u : InstructionQueue threads regs) : Prop where
  chain_self : u.dependGraph.chain idx = []
  chain_of_ne : ∀ j, j ≠ idx → u.dependGraph.chain j = w.dependGraph.chain j
  counted : w.dependGraph.Counted → u.dependGraph.Counted
  inGraph : u.inGraph = w.inGraph
  regScoreboard : u.regScoreboard = w.regScoreboard
  instList : u.instList = w.instList
  entered : u.entered = w.entered
  readySrcIdx : ∀ x, (u.status x).readySrcIdx = (w.status x).readySrcIdx
  memOpDone : ∀ x, (u.status x).memOpDone = (w.status x).memOpDone

theorem wakeChain_emptied {l : List InstSeqNum} (hl : w.dependGraph.chain idx = l) :
    Ends (Emptied idx w) GraphHolds (wakeChain p idx l w) := by
  induction l generalizing w with
  | nil => exact ⟨hl, fun _ _ => rfl, id, rfl, rfl, rfl, rfl, fun _ => rfl, fun _ => rfl⟩
  | cons x l ih =>
    let u : InstructionQueue threads regs := { w with dependGraph := w.dependGraph.pop idx }
    have hset := sameGraph_setStatus (w := u) (x := x)
      (.markSrcRegReady (p.code x).srcRegs.length) rfl rfl
    refine (addIfReady_same x).bind fun v hv => ?_
    have hall : SameGraph u v := hset.trans hv
    have hrest : v.dependGraph.chain idx = l := by
      rw [hall.dependGraph, DependencyGraph.pop_chain_self, hl, List.tail_cons]
    refine (ih hrest).mono fun t ht => ⟨ht.chain_self, fun j hj => ?_, fun hcounted => ?_,
      ht.inGraph.trans hall.inGraph, ht.regScoreboard.trans hall.regScoreboard,
      ht.instList.trans hall.instList, ht.entered.trans hall.entered,
      fun y => (ht.readySrcIdx y).trans (hall.readySrcIdx y),
      fun y => (ht.memOpDone y).trans (hall.memOpDone y)⟩
    · rw [ht.chain_of_ne j hj, hall.dependGraph]
      exact Function.update_of_ne hj ..
    · refine ht.counted (hall.dependGraph ▸ hcounted.pop ?_)
      rw [hl]
      exact List.cons_ne_nil x l

/-- A register whose chain was taken apart is written. -/
theorem Exact.written (h : Exact p w) (hu : Emptied idx w u) : Exact p { u with
      dependGraph := u.dependGraph.clearInst idx
      regScoreboard := Function.update u.regScoreboard idx true } := by
  have hL : InList p u = InList p w := inList_congr hu.instList
  refine ⟨⟨fun i x hx hg hsb => ?_, fun i x hnot => ?_, hu.counted h.chains.counted,
    fun i x hd => ?_⟩, fun x hx => ?_, hu.instList ▸ h.sorted, hu.instList ▸ h.threads,
    fun x hx => ?_⟩
  · rcases eq_or_ne i idx with rfl | hne
    · simp only [Function.update_self] at hsb
      cases hsb
    · simp only [Function.update_of_ne hne, hu.regScoreboard] at hsb
      have hcount := h.chains.waiting i x (hL ▸ hx : InList p w x) (hu.inGraph ▸ hg) hsb
      show (u.dependGraph.chain i).count x = unready p u x i
      rw [hu.chain_of_ne i hne, unready_congr (hu.readySrcIdx x)]
      exact hcount
  · show x ∉ u.dependGraph.chain i
    rcases eq_or_ne i idx with rfl | hne
    · rw [hu.chain_self]
      exact List.not_mem_nil
    · rw [hu.chain_of_ne i hne]
      simp only [Function.update_of_ne hne, hu.regScoreboard, hu.inGraph] at hnot
      exact h.chains.absent i x fun hall => hnot ⟨(hL ▸ hall.1 : InList p u x), hall.2⟩
  · show x ∉ u.dependGraph.chain i
    rcases eq_or_ne i idx with rfl | hne
    · rw [hu.chain_self]
      exact List.not_mem_nil
    · rw [hu.chain_of_ne i hne]
      exact h.chains.done i x (hu.memOpDone x ▸ hd)
  · show x ∈ u.entered
    rw [hu.entered]
    exact h.marked x (hu.inGraph ▸ hx)
  · show (p.code x).Decodes ∧ u.inGraph x = _
    rw [hu.inGraph]
    exact h.dispatched x (hL ▸ hx : InList p w x)

/-- One destination register of an instruction that completes. -/
theorem Exact.wakeDest (h : Exact p w) (dest : PhysReg regs) :
    Ends (Exact p) GraphHolds (wakeDest p w dest) := by
  unfold InstructionQueue.wakeDest
  split
  next => exact h
  next =>
    let pinned := Function.update w.numPinnedWritesToComplete dest.flatIndex
      (w.numPinnedWritesToComplete dest.flatIndex - 1)
    let v : InstructionQueue threads regs := { w with numPinnedWritesToComplete := pinned }
    have hv : Exact p v := h.of_same ⟨rfl, rfl, rfl, rfl, rfl, fun _ => rfl, fun _ => rfl⟩
    have hwake : Ends (Emptied dest.flatIndex v) GraphHolds
        (wakeChain p dest.flatIndex (v.dependGraph.chain dest.flatIndex) v) :=
      wakeChain_emptied rfl
    simp only
    split
    next => exact hv
    next => exact hwake.bind fun u hu => hv.written hu

/-- The instruction waits for no register. -/
def Idle (w : InstructionQueue threads regs) (x : InstSeqNum) : Prop :=
  ∀ idx, x ∉ w.dependGraph.chain idx

/-- A memory access completes that waits for no register. -/
theorem Exact.memOpDone (h : Exact p w) (hidle : Idle w x) :
    Exact p (w.setStatus x fun s => { s with memOpDone := true }) where
  chains := by
    have hready : ∀ y,
        ((w.setStatus x fun s => { s with memOpDone := true }).status y).readySrcIdx =
          (w.status y).readySrcIdx := fun y => by
      rcases eq_or_ne y x with rfl | hne
      · rw [setStatus_self]
      · rw [setStatus_of_ne _ hne]
    refine ⟨fun idx y hL hg hsb => ?_, h.chains.absent, h.chains.counted, fun idx y hd => ?_⟩
    · rw [unready_congr (hready y)]
      exact h.chains.waiting idx y hL hg hsb
    · rcases eq_or_ne y x with rfl | hne
      · exact hidle idx
      · rw [setStatus_of_ne _ hne] at hd
        exact h.chains.done idx y hd
  marked := h.marked
  sorted := h.sorted
  threads := h.threads
  dispatched := h.dispatched

/-- **An instruction completes**, and its dependents are woken. -/
theorem Exact.wakeDependents (h : Exact p w)
    (hidle : (p.code x).isMemRef = true → Idle w x) :
    Ends (Exact p) GraphHolds (w.wakeDependents p x) := by
  refine (ends_require ⟨nofun, nofun⟩).bind fun _ _ => ?_
  refine Ends.foldlM (fun u dest _ hu => hu.wakeDest dest) ?_
  split
  next hm => exact (h.of_same (freeSlot_same x)).memOpDone (hidle hm)
  next => exact h

/-- **Instructions commit**: they leave their list, and wait for nothing. -/
theorem Exact.commit (h : Exact p w) {tid : Fin threads}
    (hidle : ∀ y ∈ w.instList tid, y ≤ x → Idle w y) : Exact p (w.commit x tid) := by
  have hleft : ∀ t, ((w.commit x tid).instList t).Sublist (w.instList t) := fun t => by
    rcases eq_or_ne t tid with rfl | hne
    · simp only [InstructionQueue.commit, Function.update_self]
      exact List.dropWhile_sublist _
    · simp only [InstructionQueue.commit, Function.update_of_ne hne]
      exact List.Sublist.refl _
  -- what is popped is not younger than the instruction that commits
  have hpopped : ∀ y, InList p w y → ¬InList p (w.commit x tid) y → Idle w y := by
    intro y hy hgone
    by_cases ht : (p.code y).threadNumber = tid
    · subst ht
      refine hidle y hy ?_
      simp only [InList, InstructionQueue.commit, Function.update_self] at hgone
      have hsplit := List.takeWhile_append_dropWhile (p := fun z => decide (z ≤ x))
        (l := w.instList (p.code y).threadNumber)
      rw [InList, ← hsplit, List.mem_append] at hy
      simpa using List.mem_takeWhile_imp (hy.resolve_right hgone)
    · simp only [InList, InstructionQueue.commit, Function.update_of_ne ht] at hgone
      exact absurd hy hgone
  refine ⟨⟨fun idx y hL hg hsb => ?_, fun idx y hnot => ?_, h.chains.counted, h.chains.done⟩,
    h.marked, fun t => (h.sorted t).sublist (hleft t),
    fun t y hy => h.threads t y ((hleft t).mem hy),
    fun y hy => h.dispatched y ((hleft _).mem hy)⟩
  · exact h.chains.waiting idx y ((hleft _).mem hL) hg hsb
  · by_cases hall : InList p w y ∧ w.inGraph y = true ∧ w.regScoreboard idx = false
    · exact hpopped y hall.1 (fun hL => hnot ⟨hL, hall.2⟩) idx
    · exact h.chains.absent idx y hall

/-! ## Squash -/

theorem removeSource_of_ready (h : awaits w x src.1.flatIndex src = false) :
    removeSource x w src = .ok w := by
  rw [removeSource, if_pos]
  revert h
  unfold awaits
  cases src.1.isFixedMapping <;> cases (w.status x).readySrcIdx src.2 <;> simp

theorem removeSource_of_awaits {dependGraph : DependencyGraph regs}
    (h : awaits w x src.1.flatIndex src = true)
    (hg : w.dependGraph.remove src.1.flatIndex x = some dependGraph) :
    removeSource x w src = .ok { w with dependGraph } := by
  rw [removeSource, if_neg, hg]
  revert h
  unfold awaits
  cases src.1.isFixedMapping <;> cases (w.status x).readySrcIdx src.2 <;> simp

theorem awaits_of_ne (h : src.1.flatIndex ≠ idx) :
    awaits w x idx src = false := by
  rw [awaits, decide_eq_false h, Bool.false_and, Bool.false_and]

/-- What taking an instruction out of the graph leaves alone. -/
structure Without (x : InstSeqNum) (w u : InstructionQueue threads regs) : Prop where
  count : ∀ idx y, y ≠ x → (u.dependGraph.chain idx).count y = (w.dependGraph.chain idx).count y
  counted : w.dependGraph.Counted → u.dependGraph.Counted
  status : ∀ y, y ≠ x → u.status y = w.status y
  inGraph : u.inGraph = w.inGraph
  regScoreboard : u.regScoreboard = w.regScoreboard
  instList : u.instList = w.instList
  entered : u.entered = w.entered

theorem Without.refl (x : InstSeqNum) (w : InstructionQueue threads regs) : Without x w w :=
  ⟨fun _ _ _ => rfl, id, fun _ _ => rfl, rfl, rfl, rfl, rfl⟩

theorem Without.trans (h : Without x w u) (h' : Without x u w') : Without x w w' :=
  ⟨fun idx y hy => (h'.count idx y hy).trans (h.count idx y hy), h'.counted ∘ h.counted,
    fun y hy => (h'.status y hy).trans (h.status y hy), h'.inGraph.trans h.inGraph,
    h'.regScoreboard.trans h.regScoreboard, h'.instList.trans h.instList,
    h'.entered.trans h.entered⟩

/-- The nodes of `x` are those of the operands `srcs`, or the chain is empty. -/
def Nodes (x : InstSeqNum) (srcs : List (PhysReg regs × ℕ)) (w : InstructionQueue threads regs) :
    Prop :=
  ∀ idx, w.dependGraph.chain idx = [] ∨
    (w.dependGraph.chain idx).count x = srcs.countP (awaits w x idx)

/-- One operand of an instruction that leaves the graph: it has a node for it, or none at all. -/
theorem Nodes.removeSource {src : PhysReg regs × ℕ} {srcs : List (PhysReg regs × ℕ)}
    (h : Nodes x (src :: srcs) w) :
    ∃ u, removeSource x w src = .ok u ∧ Nodes x srcs u ∧ Without x w u := by
  cases hawaits : awaits w x src.1.flatIndex src with
  | false =>
    refine ⟨w, removeSource_of_ready hawaits, fun idx => (h idx).imp_right fun hcount => ?_,
      .refl x w⟩
    have hother : awaits w x idx src = false := by
      by_cases hidx : src.1.flatIndex = idx
      · exact hidx ▸ hawaits
      · exact awaits_of_ne hidx
    rwa [List.countP_cons_of_neg (by simp [hother])] at hcount
  | true =>
    have hother : ∀ idx, idx ≠ src.1.flatIndex →
        w.dependGraph.chain idx = [] ∨
          (w.dependGraph.chain idx).count x = srcs.countP (awaits w x idx) := fun idx hne => by
      refine (h idx).imp_right fun hcount => ?_
      rwa [List.countP_cons_of_neg (by simp [awaits_of_ne hne.symm])] at hcount
    rcases h src.1.flatIndex with hnil | hcount
    · -- the register was written: there is no node to look for
      refine ⟨w, removeSource_of_awaits hawaits (DependencyGraph.remove_of_nil hnil),
        fun idx => ?_, .refl x w⟩
      rcases eq_or_ne idx src.1.flatIndex with rfl | hne
      · exact .inl hnil
      · exact hother idx hne
    · rw [List.countP_cons_of_pos hawaits] at hcount
      have hmem : x ∈ w.dependGraph.chain src.1.flatIndex :=
        List.count_pos_iff.mp (hcount ▸ Nat.succ_pos _)
      have hremove := DependencyGraph.remove_of_mem hmem
      refine ⟨_, removeSource_of_awaits hawaits hremove, fun idx => ?_, fun idx y hy => ?_,
        fun hcounted => hcounted.remove hremove, fun _ _ => rfl, rfl, rfl, rfl, rfl⟩
      · rcases eq_or_ne idx src.1.flatIndex with rfl | hne
        · refine .inr ?_
          simp only [Function.update_self]
          rw [List.count_erase_self, hcount]
          rfl
        · simp only [Function.update_of_ne hne]
          exact hother idx hne
      · rcases eq_or_ne idx src.1.flatIndex with rfl | hne
        · simp only [Function.update_self]
          exact List.count_erase_of_ne hy
        · simp only [Function.update_of_ne hne]

/-- **All operands of an instruction that leaves the graph**: the walks find all its nodes. -/
theorem Nodes.removeSources {srcs : List (PhysReg regs × ℕ)} (h : Nodes x srcs w) :
    ∃ u, srcs.foldlM (InstructionQueue.removeSource x) w = .ok u ∧ Idle u x ∧
      Without x w u := by
  induction srcs generalizing w with
  | nil =>
    refine ⟨w, rfl, fun idx => ?_, .refl x w⟩
    rcases h idx with hnil | hcount
    · rw [hnil]
      exact List.not_mem_nil
    · exact List.count_eq_zero.mp hcount
  | cons src srcs ih =>
    obtain ⟨u, hu, hnodes, honly⟩ := h.removeSource
    obtain ⟨v, hv, hidle, honly'⟩ := ih hnodes
    refine ⟨v, ?_, hidle, honly.trans honly'⟩
    rw [List.foldlM_cons]
    exact bind_eq_ok.mpr ⟨u, hu, hv⟩

/-- An instruction is out of the graph: the others are as before. -/
theorem Chains.without (h : Chains p L w) (hu : Without x w u) (hidle : Idle u x) :
    Chains p (fun y => L y ∧ y ≠ x) u where
  waiting idx y hL hg hsb := by
    rw [hu.count idx y hL.2, unready_congr (congrArg Status.readySrcIdx (hu.status y hL.2))]
    exact h.waiting idx y hL.1 (hu.inGraph ▸ hg) (hu.regScoreboard ▸ hsb)
  absent idx y hnot := by
    rcases eq_or_ne y x with rfl | hne
    · exact hidle idx
    · rw [← List.count_eq_zero, hu.count idx y hne, List.count_eq_zero]
      rw [hu.inGraph, hu.regScoreboard] at hnot
      exact h.absent idx y fun hall => hnot ⟨⟨hall.1, hne⟩, hall.2⟩
  counted := hu.counted h.counted
  done idx y hd := by
    rcases eq_or_ne y x with rfl | hne
    · exact hidle idx
    · rw [← List.count_eq_zero, hu.count idx y hne, List.count_eq_zero]
      rw [hu.status y hne] at hd
      exact h.done idx y hd

/-- What a squash asks of an instruction: the walks find its nodes, or there are none. -/
structure Removable (p : Params threads regs) (w : InstructionQueue threads regs)
    (x : InstSeqNum) : Prop where
  nodes : w.unfinished p x = true → (p.code x).removedFromGraph = true →
    Nodes x (p.code x).srcRegs.zipIdx w
  idle : ¬(w.unfinished p x = true ∧ (p.code x).removedFromGraph = true) → Idle w x

/-- **An instruction is squashed**: it leaves the graph. -/
theorem Removable.squashInst (h : Removable p w x) :
    Ends (fun u => Idle u x ∧ Without x w u) GraphHolds (w.squashInst p x) := by
  have hunregister : w.unfinished p x = true →
      Ends (fun u => Idle u x ∧ Without x w u) GraphHolds (w.unregister p x) := fun hun => by
    unfold unregister
    simp only
    split
    next hremoved =>
      obtain ⟨u, hu, hdone⟩ := (h.nodes hun hremoved).removeSources
      rw [hu]
      exact hdone
    next hremoved =>
      have hidle : Idle w x := h.idle fun hall => hremoved hall.2
      split
      next =>
        split
        next => exact ⟨hidle, ⟨fun _ _ _ => rfl, id, fun _ _ => rfl, rfl, rfl, rfl, rfl⟩⟩
        next => exact (ends_require ⟨nofun, nofun⟩).bind fun _ _ => ⟨hidle, .refl x w⟩
      next => exact ⟨hidle, .refl x w⟩
  have hleave : Ends (fun u => Idle u x ∧ Without x w u) GraphHolds (w.leave p x) := by
    unfold leave
    split
    next hun =>
      refine (hunregister hun).bind fun u ⟨hidle, hu⟩ => ⟨hidle, hu.trans ?_⟩
      exact ⟨fun _ _ _ => rfl, id, fun y hy => Function.update_of_ne hy .., rfl, rfl, rfl, rfl⟩
    next hun => exact ⟨h.idle fun hall => hun hall.1, .refl x w⟩
  refine hleave.bind fun u hu => Ends.foldlM (fun v dest _ hv => ?_) hu
  unfold clearProducer
  split
  · exact hv
  · refine (ends_require ⟨nofun, nofun⟩).bind fun _ _ => ⟨hv.1, hv.2.trans ?_⟩
    exact ⟨fun _ _ _ => rfl, id, fun _ _ => rfl, rfl, rfl, rfl, rfl⟩

/-- An instruction that is in the graph if and only if a squash takes it out can be taken out. -/
theorem Chains.removable (hw : Chains p L w) (hL : L x)
    (hin : w.inGraph x = (p.code x).removedFromGraph)
    (hfinished : w.unfinished p x = false → Idle w x) : Removable p w x where
  nodes _ hremoved idx := by
    cases hsb : w.regScoreboard idx with
    | true => exact .inl (hw.chain_eq_nil hsb)
    | false => exact .inr (hw.waiting idx x hL (hin.trans hremoved) hsb)
  idle hnot := by
    cases hun : w.unfinished p x with
    | false => exact hfinished hun
    | true =>
      intro idx
      refine hw.absent idx x fun hall => hnot ⟨hun, ?_⟩
      exact hin.symm.trans hall.2.1

theorem Chains.congr {L' : InstSeqNum → Prop} (h : Chains p L w) (hL : ∀ x, L x ↔ L' x) :
    Chains p L' w := by
  have heq : L = L' := funext fun x => propext (hL x)
  exact heq ▸ h

/-- **The loop of `doSquash`** over the instructions `l` of a thread, the youngest first: those that
are left have the nodes that they had. -/
theorem Chains.squashLoop (tid : Fin threads) (sn : InstSeqNum) {l : List InstSeqNum}
    (h : Chains p L w) (hl : l.Pairwise (· > ·)) (hL : ∀ x ∈ l, L x)
    (hthreads : ∀ x ∈ l, (p.code x).threadNumber = tid)
    (hin : ∀ x ∈ l, w.inGraph x = (p.code x).removedFromGraph)
    (hfinished : ∀ x ∈ l, (w.status x).squashedInIQ = false → w.unfinished p x = false → Idle w x) :
    Ends (fun r => Chains p (fun x => L x ∧ (x ∈ l → x ∈ r.2)) r.1 ∧ r.2.Sublist l ∧
      r.1.instList = w.instList ∧ r.1.inGraph = w.inGraph ∧ r.1.entered = w.entered) GraphHolds
      (squashLoop p tid sn l w) := by
  induction l generalizing w L with
  | nil => exact ⟨h.congr fun x => by simp, List.Sublist.refl _, rfl, rfl, rfl⟩
  | cons x l ih =>
    rw [List.pairwise_cons] at hl
    have htail : ∀ y ∈ l, y ≠ x := fun y hy => (hl.1 y hy).ne
    unfold InstructionQueue.squashLoop
    split
    next hsn =>
      split
      next hskip =>
        -- the entry stays in the list
        refine (ih h hl.2 (fun y hy => hL y (List.mem_cons_of_mem x hy))
          (fun y hy => hthreads y (List.mem_cons_of_mem x hy))
          (fun y hy => hin y (List.mem_cons_of_mem x hy))
          fun y hy => hfinished y (List.mem_cons_of_mem x hy)).bind ?_
        rintro r ⟨hr, hsub, hrest⟩
        refine ⟨hr.congr fun y => ?_, hsub.cons_cons x, hrest⟩
        rcases eq_or_ne y x with rfl | hne
        · have hnot : y ∉ l := fun hy => htail y hy rfl
          simp [hnot]
        · simp [hne]
      next hskip =>
        have hiq : (w.status x).squashedInIQ = false := by
          simp only [Bool.or_eq_true, not_or, Bool.not_eq_true] at hskip
          exact hskip.2
        have hremovable := h.removable (hL x List.mem_cons_self) (hin x List.mem_cons_self)
          (hfinished x List.mem_cons_self hiq)
        refine hremovable.squashInst.bind ?_
        rintro u ⟨hidle, hu⟩
        refine (ih (h.without hu hidle) hl.2
          (fun y hy => ⟨hL y (List.mem_cons_of_mem x hy), htail y hy⟩)
          (fun y hy => hthreads y (List.mem_cons_of_mem x hy))
          (fun y hy => hu.inGraph ▸ hin y (List.mem_cons_of_mem x hy))
          fun y hy hy' hf idx hmem => ?_).mono ?_
        · have hne := htail y hy
          rw [unfinished, hu.status y hne] at hf
          rw [hu.status y hne] at hy'
          refine hfinished y (List.mem_cons_of_mem x hy) hy' hf idx (List.count_pos_iff.mp ?_)
          rw [← hu.count idx y hne]
          exact List.count_pos_iff.mpr hmem
        · rintro r ⟨hr, hsub, hlist, hsame, hentered⟩
          refine ⟨hr.congr fun y => ?_, hsub.cons x, hlist.trans hu.instList,
            hsame.trans hu.inGraph, hentered.trans hu.entered⟩
          have hnot : x ∉ r.2 := fun hmem => htail x (hsub.mem hmem) rfl
          rcases eq_or_ne y x with rfl | hne
          · simp [hnot]
          · simp [hne]
    next => exact ⟨h.congr fun y => by simp, List.Sublist.refl _, rfl, rfl, rfl⟩

/-- An instruction that issued, and if it is a memory access completed, waits for nothing. -/
theorem Exact.idle_of_finished (h : Exact p w) (hw : Accounted p w)
    (hiq : (w.status x).squashedInIQ = false) (hf : w.unfinished p x = false) : Idle w x := by
  intro idx hmem
  rw [unfinished, Bool.or_eq_false_iff, Bool.not_eq_false'] at hf
  obtain ⟨hissued, hmemory⟩ := hf
  cases hm : (p.code x).isMemRef with
  | true =>
    have hdone : (w.status x).memOpDone = true := by simpa [hm] using hmemory
    exact h.chains.done idx x hdone hmem
  | false =>
    have hwaiting : 0 < (view p w x).waiting := by
      refine (List.count_pos_iff.mpr hmem).trans_le ?_
      exact Finset.single_le_sum (f := fun i => (w.dependGraph.chain i).count x)
        (fun _ _ => Nat.zero_le _) (Finset.mem_univ idx)
    have hwaits := (((hw.good x).tracked hm).waiting hwaiting).1
    exact absurd (hwaits.2 hissued) (hiq ▸ Bool.false_ne_true)

/-- **A thread is squashed.** -/
theorem Exact.squash (h : Exact p w) (hw : Accounted p w) (tid : Fin threads) (sn : InstSeqNum) :
    Ends (Exact p) GraphHolds (w.squash p tid sn) := by
  have hin : ∀ x ∈ w.instList tid, w.inGraph x = (p.code x).removedFromGraph := fun x hx => by
    obtain ⟨hdecodes, hg⟩ := h.dispatched x (by rwa [InList, h.threads tid x hx])
    exact hg.trans hdecodes.removedFromGraph.symm
  have hloop := h.chains.squashLoop tid sn (l := (w.instList tid).reverse)
    (List.pairwise_reverse.mpr (h.sorted tid))
    (fun x hx => by
      rw [List.mem_reverse] at hx
      rw [InList, h.threads tid x hx]
      exact hx)
    (fun x hx => h.threads tid x (List.mem_reverse.mp hx))
    (fun x hx => hin x (List.mem_reverse.mp hx)) fun x _ hiq => h.idle_of_finished hw hiq
  refine hloop.bind fun r ⟨hr, hsub, hlist, hsame, hentered⟩ => ?_
  have hleft : r.2.reverse.Sublist (w.instList tid) := by
    simpa using hsub.reverse
  have hlists : ∀ t, (Function.update r.1.instList tid r.2.reverse t).Sublist (w.instList t) := by
    intro t
    rcases eq_or_ne t tid with rfl | hne
    · rw [Function.update_self]
      exact hleft
    · rw [Function.update_of_ne hne, hlist]
  have hchains : Chains p (fun x => x ∈ Function.update r.1.instList tid r.2.reverse
      (p.code x).threadNumber) r.1 := hr.congr fun x => by
    by_cases ht : (p.code x).threadNumber = tid
    · have hL : InList p w x ↔ x ∈ w.instList tid := by rw [InList, ht]
      rw [ht, Function.update_self, hL]
      simp only [List.mem_reverse]
      exact ⟨fun hx => hx.2 hx.1, fun hx => ⟨List.mem_reverse.mp (hsub.mem hx), fun _ => hx⟩⟩
    · rw [Function.update_of_ne ht, hlist, InList]
      refine and_iff_left fun hx => ?_
      exact absurd (h.threads tid x (List.mem_reverse.mp hx)) ht
  refine ⟨⟨hchains.waiting, hchains.absent, hchains.counted, hchains.done⟩, fun x hx => ?_,
    fun t => (h.sorted t).sublist (hlists t), fun t x hx => h.threads t x ((hlists t).mem hx),
    fun x hx => ?_⟩
  · show x ∈ r.1.entered
    rw [hentered]
    exact h.marked x (hsame ▸ hx)
  · show (p.code x).Decodes ∧ r.1.inGraph x = _
    rw [hsame]
    exact h.dispatched x ((hlists _).mem hx)

/-! ## Whole runs -/

/-- The rename discipline, and that an instruction completes or commits only once it waits for no
register. -/
def Renamed (p : Params threads regs) (w : InstructionQueue threads regs) :
    Op threads regs → Prop
  | .insert x _ | .insertNonSpec x _ => Renames p w x
  | .wakeDependents x => (p.code x).isMemRef = true → Idle w x
  | .commit x tid => ∀ y ∈ w.instList tid, y ≤ x → Idle w y
  | _ => True

/-- Dispatch hands over what an instruction set decodes, to `insert` or to `insertNonSpec` as the
flags say. -/
def Dispatched (p : Params threads regs) : Op threads regs → Prop
  | .insert x _ => (p.code x).Decodes ∧ (p.code x).addToIQ = true
  | .insertNonSpec x _ => (p.code x).Decodes ∧ (p.code x).addToIQ = false
  | _ => True

theorem exact_init : Exact p (init p) where
  chains := ⟨fun _ _ hx => absurd hx List.not_mem_nil, fun _ _ _ => List.not_mem_nil,
    DependencyGraph.counted_init, fun _ _ _ => List.not_mem_nil⟩
  marked _ h := absurd h Bool.false_ne_true
  sorted _ := .nil
  threads _ _ h := absurd h List.not_mem_nil
  dispatched _ h := absurd h List.not_mem_nil

theorem Exact.step (h : Exact p w) (hw : Accounted p w) (op : Op threads regs)
    (hpromised : Promised p w op) (hrenamed : Renamed p w op) (hdispatched : Dispatched p op) :
    Ends (Exact p) GraphHolds (step p w op) := by
  have hflags : ∀ (x : InstSeqNum) (f : Status → Status),
      (f (w.status x)).readySrcIdx = (w.status x).readySrcIdx →
      (f (w.status x)).memOpDone = (w.status x).memOpDone → Exact p (w.setStatus x f) :=
    fun x f hready hdone => h.of_same (sameGraph_setStatus f hready hdone)
  have hsame : ∀ u : InstructionQueue threads regs, SameGraph w u → Exact p u :=
    fun u hu => h.of_same hu
  cases op with
  | insert x readySrc =>
    exact h.insert hpromised hrenamed hdispatched.1 hdispatched.2 readySrc
  | insertNonSpec x readySrc =>
    exact h.insertNonSpec hpromised hrenamed hdispatched.1 hdispatched.2 readySrc
  | addIfReady x => exact (addIfReady_same x).mono hsame
  | addReadyMemInst x => exact (addReady_same x).mono hsame
  | scheduleReadyInsts fu =>
    have hrun := scheduleReadyInsts_same (p := p) (w := w) fu
    rw [InstructionQueue.step]
    cases hr : w.scheduleReadyInsts p fu with
    | ok r =>
      rw [hr] at hrun
      exact h.of_same hrun
    | error e =>
      rw [hr] at hrun
      exact hrun
  | scheduleNonSpec x => exact (scheduleNonSpec_same x).mono hsame
  | wakeDependents x => exact h.wakeDependents hrenamed
  | deferMemInst x => exact h.of_same ⟨rfl, rfl, rfl, rfl, rfl, fun _ => rfl, fun _ => rfl⟩
  | blockMemInst x =>
    exact (hflags x (fun s => { s with issued := false, canIssue := false }) rfl rfl).of_same
      ⟨rfl, rfl, rfl, rfl, rfl, fun _ => rfl, fun _ => rfl⟩
  | rescheduleMemInst x => exact hflags x _ rfl rfl
  | holdMemInst x => exact hflags x _ rfl rfl
  | cacheUnblocked => exact h.of_same ⟨rfl, rfl, rfl, rfl, rfl, fun _ => rfl, fun _ => rfl⟩
  | commit x tid => exact h.commit hrenamed
  | squash tid sn => exact h.squash hw tid sn
  | processFUCompletion x =>
    exact h.of_same ⟨rfl, rfl, rfl, rfl, rfl, fun _ => rfl, fun _ => rfl⟩
  | getInstToExecute =>
    exact (ends_require ⟨by simp, by simp⟩).bind fun _ _ =>
      h.of_same ⟨rfl, rfl, rfl, rfl, rfl, fun _ => rfl, fun _ => rfl⟩
  | raiseFlag x flag => cases flag <;> exact hflags x _ rfl rfl
  | pinReg idx n => exact h.of_same ⟨rfl, rfl, rfl, rfl, rfl, fun _ => rfl, fun _ => rfl⟩

/-- **The chains over whole runs.**  In every run of dispatched instructions that follows the rename
discipline, the chain of a register that is not written holds each instruction that `insert` put
into the queue once for each of its operands on that register that is not ready, and nothing else;
`memAllocCounter` counts the nodes; no walk of `remove` runs past the end of a chain, and no
register gets a new producer while its chain has nodes. -/
theorem chains_exact {ops : List (Op threads regs)}
    (hops : Admitted (fun w op => Promised p w op ∧ Renamed p w op ∧ Dispatched p op)
      (step p) (init p) ops) :
    Ends (fun w =>
      (∀ idx x, (w.dependGraph.chain idx).count x =
        if InList p w x ∧ (p.code x).addToIQ = true ∧ w.regScoreboard idx = false then
          unready p w x idx
        else 0) ∧
      w.dependGraph.memAllocCounter = ∑ idx, (w.dependGraph.chain idx).length)
      (fun e => e ≠ .removePastEnd ∧ e ≠ .graphNotEmpty) (run (step p) (init p) ops) := by
  have hrun : Ends (fun w => Accounted p w ∧ Exact p w) GraphHolds (run (step p) (init p) ops) :=
    run_ends (fun w op hw hop => ((hw.1.step op hop.1).and
      (hw.2.step hw.1 op hop.1 hop.2.1 hop.2.2)).mono_error fun e he => he.2)
      ⟨accounted_init, exact_init⟩ hops
  refine hrun.mono fun w hw => ⟨fun idx x => ?_, hw.2.chains.counted⟩
  split
  next hx =>
    have hg := (hw.2.dispatched x hx.1).2.trans hx.2.1
    exact hw.2.chains.waiting idx x hx.1 hg hx.2.2
  next hx =>
    refine List.count_eq_zero.mpr (hw.2.chains.absent idx x fun hall => hx ⟨hall.1, ?_, hall.2.2⟩)
    exact (hw.2.dispatched x hall.1).2.symm.trans hall.2.1

instance (inst : DynInst threads regs) : Decidable inst.Decodes :=
  decidable_of_iff (_ ∧ _ ∧ _ ∧ _) ⟨fun h => ⟨h.1, h.2.1, h.2.2.1, h.2.2.2⟩,
    fun h => ⟨h.atomic, h.barriers, h.speculative, h.conditional⟩⟩

instance (op : Op threads regs) : Decidable (Dispatched p op) := by
  cases op <;> dsimp only [Dispatched] <;> infer_instance

instance (w : InstructionQueue threads regs) (op : Op threads regs) :
    Decidable (Promised p w op) := by
  cases op <;> dsimp only [Promised] <;> infer_instance

instance (w : InstructionQueue threads regs) (x : InstSeqNum) : Decidable (Idle w x) :=
  inferInstanceAs (Decidable (∀ idx, x ∉ w.dependGraph.chain idx))

instance (w : InstructionQueue threads regs) (x : InstSeqNum) : Decidable (Renames p w x) :=
  inferInstanceAs (Decidable (_ ∧ _))

instance (w : InstructionQueue threads regs) (op : Op threads regs) :
    Decidable (Renamed p w op) := by
  cases op <;> dsimp only [Renamed] <;> infer_instance

/-- One register: instructions 1 and 5 write it, 2 and 6 read it twice, 3 is a compare and swap with
acquire and release semantics that reads it, and 4 a load that acquires and reads it. -/
def acquireRelease : Params 1 1 where
  numEntries := 8
  totalWidth := 2
  code x := match x with
    | 1 | 5 => { threadNumber := .last 0, destRegs := [{ flatIndex := .last 0 }] }
    | 3 => { threadNumber := .last 0, isAtomic := true, isReadBarrier := true,
             isWriteBarrier := true, srcRegs := [{ flatIndex := .last 0 }] }
    | 4 => { threadNumber := .last 0, isLoad := true, isReadBarrier := true,
             isWriteBarrier := true, srcRegs := [{ flatIndex := .last 0 }] }
    | _ => { threadNumber := .last 0,
             srcRegs := [{ flatIndex := .last 0 }, { flatIndex := .last 0 }] }

/-- The load and the compare and swap are squashed while both operands of instruction 2 wait.  Then
the register is written, 2 issues and commits, and the register is renamed. -/
def acquireReleaseOps : List (Op 1 1) :=
  [.pinReg (.last 0) 1, .insert 1 fun _ => true, .insert 2 fun _ => false,
    .insertNonSpec 3 fun _ => false, .insert 4 fun _ => false, .squash (.last 0) 2,
    .scheduleReadyInsts fun _ => .unit 1, .wakeDependents 1,
    .scheduleReadyInsts fun _ => .unit 1, .wakeDependents 2, .commit 2 (.last 0),
    .pinReg (.last 0) 1, .insert 5 fun _ => true, .insert 6 fun _ => false]

theorem chains_exact_acquireRelease :
    ∃ w, run (step acquireRelease) (init acquireRelease) acquireReleaseOps = .ok w ∧
      w.dependGraph.chain 0 = [6, 6] ∧ w.instList 0 = [5, 6] ∧
      w.dependGraph.memAllocCounter = ∑ idx, (w.dependGraph.chain idx).length := by
  obtain ⟨w, hw, hchain⟩ : ∃ w, run (step acquireRelease) (init acquireRelease)
      acquireReleaseOps = .ok w ∧ w.dependGraph.chain 0 = [6, 6] ∧ w.instList 0 = [5, 6] := by
    decide +kernel
  have hadm : Admitted (fun w op => Promised acquireRelease w op ∧ Renamed acquireRelease w op ∧
      Dispatched acquireRelease op) (step acquireRelease) (init acquireRelease)
      acquireReleaseOps := by
    decide +kernel
  have hexact := chains_exact hadm
  rw [hw] at hexact
  exact ⟨w, hw, hchain.1, hchain.2, hexact.2⟩

end InstructionQueue

end Gem5.Iq
