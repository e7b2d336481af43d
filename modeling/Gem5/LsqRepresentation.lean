/-
# The representation of the load and store queues

What the counters, the write-back position and the instructions of the unit say about its two
circular queues (`RepAt`), and that every operation on the unit keeps it.  The write-back position
is a parameter: `writebackStores` moves `storeWBIt` past a store before it completes the store in
some rounds and after that in others.

Stores complete out of order and leave from the head only, so the argument about the counters counts
entries (`CircularQueue.count`): an entry that leaves is completed or was never able to write back,
and is counted in neither case.
-/
import Gem5.LsqPipeline

open Runs

namespace Gem5.Lsq

/-! ## The invariant -/

/-- The store may write back and is not completed. -/
def Status.waits (st : Status) : Bool := st.canWB && !st.completed

/-- The store was handed to the memory system and is not completed. -/
def Status.outstanding (st : Status) : Bool := st.committed && !st.completed

/-- How many stores may write back and are not completed. -/
def LSQUnit.waiting (u : LSQUnit) : ℕ := u.storeQueue.count (Status.waits ∘ SQEntry.status)

/-- How many stores were handed to the memory system and are not completed. -/
def LSQUnit.outstanding (u : LSQUnit) : ℕ :=
  u.storeQueue.count (Status.outstanding ∘ SQEntry.status)

/-- **The representation invariant of the unit**, for the write-back position `w`. -/
structure RepAt (u : LSQUnit) (w : ℕ) : Prop where
  lqFits : u.loadQueue.Fits
  sqFits : u.storeQueue.Fits
  loads : u.loads = u.loadQueue.size
  stores : u.stores = u.storeQueue.size
  storesToWB : u.storesToWB = u.waiting
  /-- a slot that is not in use is ready for the next store -/
  clean : ∀ i, (u.storeQueue.get i).valid = false → (u.storeQueue.get i).canWB = false ∧
    (u.storeQueue.get i).committed = false ∧ (u.storeQueue.get i).completed = false
  sent : ∀ i, (u.storeQueue.get i).committed = true → (u.storeQueue.get i).canWB = true
  loadInst : ∀ i, u.loadQueue.IsValidIdx i → ∃ q, u.LoadAt i q
  storeInst : ∀ j, u.storeQueue.IsValidIdx j → ∃ s, u.StoreAt j s
  live : ∀ j, u.storeQueue.IsValidIdx j → (u.storeQueue.get j).valid = true
  loadsSorted : ∀ i i' q q', u.LoadAt i q → u.LoadAt i' q' → i < i' → q < q'
  storesSorted : ∀ j j' s s', u.StoreAt j s → u.StoreAt j' s' → j < j' → s < s'
  loadPlace : ∀ i q, u.LoadAt i q → (u.insts q).isLoad = true ∧ (u.insts q).lqIdx = i
  storePlace : ∀ j s, u.StoreAt j s → (u.insts s).isLoad = false ∧ (u.insts s).sqIdx = j
  /-- the stores that a load searches are in the queue and older than the load -/
  window : ∀ i q, u.LoadAt i q → (u.insts q).sqIt ≤ u.storeQueue.head + u.storeQueue.size ∧
    ∀ j s, u.StoreAt j s → j < (u.insts q).sqIt → s < q
  head_le : u.storeQueue.head ≤ w
  le_end : w ≤ u.storeQueue.head + u.storeQueue.size
  before : ∀ j, u.storeQueue.IsValidIdx j → j < w → (u.storeQueue.get j).canWB = true
  after : ∀ j, u.storeQueue.IsValidIdx j → w ≤ j → (u.storeQueue.get j).completed = false

/-- **What an operation keeps** of the stores from the write-back position on, and of the stall
record. -/
structure Carries (w : ℕ) (u u' : LSQUnit) : Prop where
  storeWBIt : u'.storeWBIt = u.storeWBIt
  stalled : u'.stalled = u.stalled
  stallingStoreIsn : u'.stallingStoreIsn = u.stallingStoreIsn
  stallingLoadIdx : u'.stallingLoadIdx = u.stallingLoadIdx
  storeAt : ∀ j s, w ≤ j → u.StoreAt j s → u'.StoreAt j s
  committed : ∀ j, w ≤ j → u.storeQueue.IsValidIdx j → (u.storeQueue.get j).committed = true →
    u'.storeQueue.IsValidIdx j ∧ (u'.storeQueue.get j).committed = true

theorem Carries.refl (w : ℕ) (u : LSQUnit) : Carries w u u :=
  ⟨rfl, rfl, rfl, rfl, fun _ _ _ h => h, fun _ _ h h' => ⟨h, h'⟩⟩

theorem Carries.trans {w : ℕ} {t u v : LSQUnit} (h : Carries w t u) (h' : Carries w u v) :
    Carries w t v where
  storeWBIt := h'.storeWBIt.trans h.storeWBIt
  stalled := h'.stalled.trans h.stalled
  stallingStoreIsn := h'.stallingStoreIsn.trans h.stallingStoreIsn
  stallingLoadIdx := h'.stallingLoadIdx.trans h.stallingLoadIdx
  storeAt j s hw hj := h'.storeAt j s hw (h.storeAt j s hw hj)
  committed j hw hj hc :=
    h'.committed j hw (h.committed j hw hj hc).1 (h.committed j hw hj hc).2

theorem repAt_new (lqEntries sqEntries shift : ℕ) (checkLoads : Bool) :
    RepAt (LSQUnit.new lqEntries sqEntries shift checkLoads) 1 := by
  have hload :
      ∀ i, ¬ (LSQUnit.new lqEntries sqEntries shift checkLoads).loadQueue.IsValidIdx i := by
    rintro i ⟨h1, h2⟩
    exact absurd (lt_of_lt_of_le h2 h1) (lt_irrefl _)
  have hstore :
      ∀ j, ¬ (LSQUnit.new lqEntries sqEntries shift checkLoads).storeQueue.IsValidIdx j := by
    rintro j ⟨h1, h2⟩
    exact absurd (lt_of_lt_of_le h2 h1) (lt_irrefl _)
  exact
    { lqFits := CircularQueue.fits_new _
      sqFits := CircularQueue.fits_new _
      loads := rfl
      stores := rfl
      storesToWB := rfl
      clean := fun _ _ => ⟨rfl, rfl, rfl⟩
      sent := fun _ h => by cases h
      loadInst := fun i hi => absurd hi (hload i)
      storeInst := fun j hj => absurd hj (hstore j)
      live := fun j hj => absurd hj (hstore j)
      loadsSorted := fun i _ _ _ hi => absurd hi.1 (hload i)
      storesSorted := fun j _ _ _ hj => absurd hj.1 (hstore j)
      loadPlace := fun i _ hi => absurd hi.1 (hload i)
      storePlace := fun j _ hj => absurd hj.1 (hstore j)
      window := fun i _ hi => absurd hi.1 (hload i)
      head_le := le_rfl
      le_end := le_rfl
      before := fun j hj => absurd hj (hstore j)
      after := fun j hj => absurd hj (hstore j) }

section

variable {u u' : LSQUnit} {w : ℕ}

theorem RepAt.loadAt_le (h : RepAt u w) {i i' : ℕ} {q q' : InstSeqNum} (hi : u.LoadAt i q)
    (hi' : u.LoadAt i' q') (hle : i ≤ i') : q ≤ q' := by
  rcases hle.lt_or_eq with hlt | rfl
  · exact (h.loadsSorted i i' q q' hi hi' hlt).le
  · exact (hi.unique hi').le

/-! ## Frames -/

theorem loadAt_same (hlq : SameQueue LSQEntry.inst u.loadQueue u'.loadQueue) (i : ℕ)
    (q : InstSeqNum) : u'.LoadAt i q ↔ u.LoadAt i q := by
  unfold LSQUnit.LoadAt
  rw [hlq.valid, hlq.get]

theorem storeAt_same (hsq : SameQueue SQEntry.status u.storeQueue u'.storeQueue) (j : ℕ)
    (s : InstSeqNum) : u'.StoreAt j s ↔ u.StoreAt j s := by
  unfold LSQUnit.StoreAt
  rw [hsq.valid, show (u'.storeQueue.get j).inst = (u.storeQueue.get j).inst from
    congrArg Status.inst (hsq.get j)]

/-- Queues that show the same keep the invariant. -/
theorem RepAt.same (h : RepAt u w) (hlq : SameQueue LSQEntry.inst u.loadQueue u'.loadQueue)
    (hsq : SameQueue SQEntry.status u.storeQueue u'.storeQueue) (hloads : u'.loads = u.loads)
    (hstores : u'.stores = u.stores) (hwb : u'.storesToWB = u.storesToWB)
    (hinsts : ∀ q, KeepsSlots (u.insts q) (u'.insts q)) : RepAt u' w := by
  have hload := loadAt_same hlq
  have hstore := storeAt_same hsq
  have hcanWB : ∀ j, (u'.storeQueue.get j).canWB = (u.storeQueue.get j).canWB := fun j =>
    congrArg Status.canWB (hsq.get j)
  have hcommitted : ∀ j, (u'.storeQueue.get j).committed = (u.storeQueue.get j).committed :=
    fun j => congrArg Status.committed (hsq.get j)
  have hcompleted : ∀ j, (u'.storeQueue.get j).completed = (u.storeQueue.get j).completed :=
    fun j => congrArg Status.completed (hsq.get j)
  have hvalid : ∀ j, (u'.storeQueue.get j).valid = (u.storeQueue.get j).valid := fun j =>
    congrArg Status.valid (hsq.get j)
  constructor
  · exact hlq.fits h.lqFits
  · exact hsq.fits h.sqFits
  · rw [hloads, h.loads, hlq.size]
  · rw [hstores, h.stores, hsq.size]
  · rw [hwb, h.storesToWB]
    exact congrArg _ (CircularQueue.count_congr _ hsq.entries).symm
  · intro i
    rw [hvalid, hcanWB, hcommitted, hcompleted]
    exact h.clean i
  · intro i
    rw [hcanWB, hcommitted]
    exact h.sent i
  · intro i hi
    obtain ⟨q, hq⟩ := h.loadInst i ((hlq.valid i).mp hi)
    exact ⟨q, (hload i q).mpr hq⟩
  · intro j hj
    obtain ⟨s, hs⟩ := h.storeInst j ((hsq.valid j).mp hj)
    exact ⟨s, (hstore j s).mpr hs⟩
  · intro j hj
    rw [hvalid]
    exact h.live j ((hsq.valid j).mp hj)
  · intro i i' q q' hi hi'
    exact h.loadsSorted i i' q q' ((hload i q).mp hi) ((hload i' q').mp hi')
  · intro j j' s s' hj hj'
    exact h.storesSorted j j' s s' ((hstore j s).mp hj) ((hstore j' s').mp hj')
  · intro i q hi
    rw [(hinsts q).isLoad, (hinsts q).lqIdx]
    exact h.loadPlace i q ((hload i q).mp hi)
  · intro j s hj
    rw [(hinsts s).isLoad, (hinsts s).sqIdx]
    exact h.storePlace j s ((hstore j s).mp hj)
  · intro i q hi
    rw [(hinsts q).sqIt, hsq.head, hsq.size]
    obtain ⟨hle, hlt⟩ := h.window i q ((hload i q).mp hi)
    exact ⟨hle, fun j s hj => hlt j s ((hstore j s).mp hj)⟩
  · rw [hsq.head]
    exact h.head_le
  · rw [hsq.head, hsq.size]
    exact h.le_end
  · intro j hj
    rw [hcanWB]
    exact h.before j ((hsq.valid j).mp hj)
  · intro j hj
    rw [hcompleted]
    exact h.after j ((hsq.valid j).mp hj)

theorem RepAt.framed (h : RepAt u w) (hf : Framed u u') : RepAt u' w :=
  h.same hf.loadQueue hf.storeQueue hf.loads hf.stores hf.storesToWB hf.insts

theorem Framed.loadAt (hf : Framed u u') (i : ℕ) (q : InstSeqNum) :
    u'.LoadAt i q ↔ u.LoadAt i q := loadAt_same hf.loadQueue i q

theorem Framed.storeAt (hf : Framed u u') (j : ℕ) (s : InstSeqNum) :
    u'.StoreAt j s ↔ u.StoreAt j s := storeAt_same hf.storeQueue j s

theorem Framed.outstanding (hf : Framed u u') : u'.outstanding = u.outstanding :=
  CircularQueue.count_congr _ hf.storeQueue.entries

theorem Framed.carries (hf : Framed u u') (w : ℕ) : Carries w u u' where
  storeWBIt := hf.storeWBIt
  stalled := hf.stalled
  stallingStoreIsn := hf.stallingStoreIsn
  stallingLoadIdx := hf.stallingLoadIdx
  storeAt j s _ hj := (hf.storeAt j s).mpr hj
  committed j _ hj hc := by
    refine ⟨(hf.storeQueue.valid j).mpr hj, ?_⟩
    rw [← hc]
    exact congrArg Status.committed (hf.storeQueue.get j)

/-- The write-back position passes a store that may write back. -/
theorem RepAt.advance (h : RepAt u w) (hw : u.storeQueue.IsValidIdx w)
    (hcan : (u.storeQueue.get w).canWB = true) : RepAt u (w + 1) :=
  { h with
    head_le := Nat.le_succ_of_le h.head_le
    le_end := hw.2
    before := fun j hj hlt => by
      rcases (Nat.lt_succ_iff.mp hlt).lt_or_eq with hlt | rfl
      · exact h.before j hj hlt
      · exact hcan
    after := fun j hj hle => h.after j hj (Nat.le_of_succ_le hle) }

/-! ## Store entries -/

/-- The progress of one store. -/
theorem RepAt.setStore (h : RepAt u w) {j : ℕ} (hj : u.storeQueue.IsValidIdx j) {x : SQEntry}
    {n : ℤ} (hinst : x.inst = (u.storeQueue.get j).inst) (hcan : x.canWB = true)
    (hvalid : x.valid = true)
    (hafter : w ≤ j → x.completed = false)
    (hn : n + (Status.waits (u.storeQueue.get j).status).toNat =
      u.storesToWB + (Status.waits x.status).toNat) :
    RepAt { u with storeQueue := u.storeQueue.set j x, storesToWB := n } w := by
  have hget : ∀ i, (u.storeQueue.set j x).get i = u.storeQueue.get i ∨
      (u.storeQueue.set j x).get i = x := fun i =>
    (CircularQueue.get_set_cases u.storeQueue j i x).imp id And.right
  have hne : ∀ i, u.storeQueue.IsValidIdx i → i ≠ j →
      (u.storeQueue.set j x).get i = u.storeQueue.get i := fun i hi hij =>
    CircularQueue.get_set_of_ne h.sqFits hj hi hij x
  have hstore : ∀ i s, LSQUnit.StoreAt
      { u with storeQueue := u.storeQueue.set j x, storesToWB := n } i s ↔ u.StoreAt i s := by
    intro i s
    unfold LSQUnit.StoreAt
    refine and_congr_right fun hi => ?_
    by_cases hij : i = j
    · subst hij
      dsimp only
      rw [CircularQueue.get_set_self, hinst]
    · dsimp only
      rw [hne i hi hij]
  constructor
  · exact h.lqFits
  · exact CircularQueue.fits_set h.sqFits _ _
  · exact h.loads
  · exact h.stores
  · have hcount := CircularQueue.count_set (Status.waits ∘ SQEntry.status) h.sqFits hj x
    have hwb := h.storesToWB
    unfold LSQUnit.waiting at hwb ⊢
    dsimp only [Function.comp_apply] at hcount ⊢
    omega
  · intro i hi
    rcases hget i with he | he
    · dsimp only at hi ⊢
      rw [he] at hi ⊢
      exact h.clean i hi
    · dsimp only at hi
      rw [he, hvalid] at hi
      cases hi
  · intro i hi
    dsimp only at hi ⊢
    rcases hget i with he | he
    · rw [he] at hi ⊢
      exact h.sent i hi
    · rw [he]
      exact hcan
  · exact h.loadInst
  · intro i hi
    obtain ⟨s, hs⟩ := h.storeInst i hi
    exact ⟨s, (hstore i s).mpr hs⟩
  · intro i hi
    dsimp only
    rcases hget i with he | he
    · rw [he]
      exact h.live i hi
    · rw [he]
      exact hvalid
  · exact h.loadsSorted
  · intro i i' s s' hi hi'
    exact h.storesSorted i i' s s' ((hstore i s).mp hi) ((hstore i' s').mp hi')
  · exact h.loadPlace
  · intro i s hi
    exact h.storePlace i s ((hstore i s).mp hi)
  · intro i q hi
    obtain ⟨hle, hlt⟩ := h.window i q hi
    exact ⟨hle, fun i s hi => hlt i s ((hstore i s).mp hi)⟩
  · exact h.head_le
  · exact h.le_end
  · intro i hi hlt
    dsimp only
    by_cases hij : i = j
    · rw [hij, CircularQueue.get_set_self]
      exact hcan
    · rw [hne i hi hij]
      exact h.before i hi hlt
  · intro i hi hle
    dsimp only
    by_cases hij : i = j
    · rw [hij, CircularQueue.get_set_self]
      exact hafter (hij ▸ hle)
    · rw [hne i hi hij]
      exact h.after i hi hle

/-- The progress of one store, as the others see it. -/
theorem carries_setStore (hf : u.storeQueue.Fits) {j : ℕ} (hj : u.storeQueue.IsValidIdx j)
    {x : SQEntry} {n : ℤ} (hinst : x.inst = (u.storeQueue.get j).inst)
    (hcommitted : (u.storeQueue.get j).committed = true → x.committed = true) :
    Carries w u { u with storeQueue := u.storeQueue.set j x, storesToWB := n } := by
  have hne : ∀ i, u.storeQueue.IsValidIdx i → i ≠ j →
      (u.storeQueue.set j x).get i = u.storeQueue.get i := fun i hi hij =>
    CircularQueue.get_set_of_ne hf hj hi hij x
  refine ⟨rfl, rfl, rfl, rfl, fun i s _ hi => ⟨hi.1, ?_⟩, fun i _ hi hc => ⟨hi, ?_⟩⟩
  · by_cases hij : i = j
    · subst hij
      dsimp only
      rw [CircularQueue.get_set_self, hinst]
      exact hi.2
    · dsimp only
      rw [hne i hi.1 hij]
      exact hi.2
  · by_cases hij : i = j
    · subst hij
      dsimp only
      rw [CircularQueue.get_set_self]
      exact hcommitted hc
    · dsimp only
      rw [hne i hi hij]
      exact hc

theorem outstanding_setStore (hf : u.storeQueue.Fits) {j : ℕ} (hj : u.storeQueue.IsValidIdx j)
    (x : SQEntry) (n : ℤ) :
    LSQUnit.outstanding { u with storeQueue := u.storeQueue.set j x, storesToWB := n } +
        (Status.outstanding (u.storeQueue.get j).status).toNat =
      u.outstanding + (Status.outstanding x.status).toNat :=
  CircularQueue.count_set (Status.outstanding ∘ SQEntry.status) hf hj x

/-- A store may write back. -/
theorem RepAt.allowWB (h : RepAt u w) {j : ℕ} (hj : u.storeQueue.IsValidIdx j)
    (hcan : (u.storeQueue.get j).canWB = false) :
    RepAt (u.allowWB j) w ∧ Carries w u (u.allowWB j) ∧
      (u.allowWB j).outstanding = u.outstanding := by
  have hafter : w ≤ j := by
    by_contra hlt
    rw [h.before j hj (not_le.mp hlt)] at hcan
    cases hcan
  have hcompleted := h.after j hj hafter
  refine ⟨h.setStore hj rfl rfl (h.live j hj) (fun _ => hcompleted) ?_,
    carries_setStore h.sqFits hj rfl fun hc => hc, ?_⟩
  · unfold Status.waits SQEntry.status
    dsimp only
    rw [hcan, hcompleted]
    exact add_zero _
  · exact Nat.add_right_cancel (outstanding_setStore h.sqFits hj _ _)

/-- The store at the write-back position is handed to the memory system. -/
theorem RepAt.setCommitted (h : RepAt u w) (hw : u.storeQueue.IsValidIdx w)
    (hcan : (u.storeQueue.get w).canWB = true) (hnew : (u.storeQueue.get w).committed = false) :
    let v : LSQUnit := { u with
      storeQueue := u.storeQueue.set w { u.storeQueue.get w with committed := true } }
    RepAt v w ∧ Carries w u v ∧ v.outstanding = u.outstanding + 1 := by
  have hcompleted := h.after w hw le_rfl
  refine ⟨h.setStore hw rfl hcan (h.live w hw) (fun _ => hcompleted) rfl,
    carries_setStore h.sqFits hw rfl fun _ => rfl, ?_⟩
  have hcount := outstanding_setStore h.sqFits hw
    { u.storeQueue.get w with committed := true } u.storesToWB
  have hold : Status.outstanding (u.storeQueue.get w).status = false := by
    unfold Status.outstanding SQEntry.status
    rw [hnew, Bool.false_and]
  have hgone : Status.outstanding
      (SQEntry.status { u.storeQueue.get w with committed := true }) = true := by
    unfold Status.outstanding SQEntry.status
    rw [hcompleted]
    rfl
  rw [hold, hgone] at hcount
  exact hcount

/-- A store below the write-back position completes. -/
theorem RepAt.setCompleted (h : RepAt u w) {j : ℕ} (hj : u.storeQueue.IsValidIdx j) (hlt : j < w)
    (hnew : (u.storeQueue.get j).completed = false) :
    let v : LSQUnit := { u with
      storeQueue := u.storeQueue.set j { u.storeQueue.get j with completed := true }
      storesToWB := u.storesToWB - 1 }
    RepAt v w ∧ Carries w u v ∧
      v.outstanding + (u.storeQueue.get j).committed.toNat = u.outstanding := by
  have hcan := h.before j hj hlt
  refine ⟨h.setStore hj rfl hcan (h.live j hj) (fun hle => absurd hle (not_le.mpr hlt)) ?_,
    carries_setStore h.sqFits hj rfl fun hc => hc, ?_⟩
  · unfold Status.waits SQEntry.status
    dsimp only
    rw [hcan, hnew]
    exact (sub_add_cancel u.storesToWB 1).trans (add_zero _).symm
  · have hcount := outstanding_setStore h.sqFits hj
      { u.storeQueue.get j with completed := true } (u.storesToWB - 1)
    unfold Status.outstanding SQEntry.status at hcount
    dsimp only at hcount
    rw [hnew, Bool.not_true, Bool.and_false, Bool.not_false, Bool.and_true] at hcount
    exact hcount

/-! ## Leaving the queues -/

/-- Stores leave that are not counted. -/
theorem RepAt.shrinkStores (h : RepAt u w) {sq : CircularQueue SQEntry} {y : SQEntry}
    (hfits : sq.Fits) (hsize : (sq.size : ℤ) = u.stores - 1)
    (hsub : ∀ j, sq.IsValidIdx j → u.storeQueue.IsValidIdx j ∧ sq.get j = u.storeQueue.get j)
    (hslots : ∀ i, sq.get i = u.storeQueue.get i ∨ sq.get i = y.clear)
    (hwaits : sq.count (Status.waits ∘ SQEntry.status) = u.waiting)
    (hhead : sq.head ≤ w) (hend : w ≤ sq.head + sq.size)
    (hwindow : ∀ i q, u.LoadAt i q → (u.insts q).sqIt ≤ sq.head + sq.size) :
    RepAt { u with storeQueue := sq, stores := u.stores - 1 } w := by
  have hstore : ∀ j s, LSQUnit.StoreAt { u with storeQueue := sq, stores := u.stores - 1 } j s →
      u.StoreAt j s := by
    rintro j s ⟨hj, hs⟩
    obtain ⟨hj', he⟩ := hsub j hj
    exact ⟨hj', he ▸ hs⟩
  constructor
  · exact h.lqFits
  · exact hfits
  · exact h.loads
  · exact hsize.symm
  · rw [h.storesToWB, ← hwaits]
    rfl
  · intro i hi
    dsimp only at hi ⊢
    rcases hslots i with he | he
    · rw [he] at hi ⊢
      exact h.clean i hi
    · rw [he]
      exact ⟨rfl, rfl, rfl⟩
  · intro i hi
    dsimp only at hi ⊢
    rcases hslots i with he | he
    · rw [he] at hi ⊢
      exact h.sent i hi
    · rw [he] at hi
      cases hi
  · exact h.loadInst
  · intro j hj
    obtain ⟨hj', he⟩ := hsub j hj
    obtain ⟨s, hs⟩ := h.storeInst j hj'
    exact ⟨s, hj, by dsimp only; rw [he]; exact hs.2⟩
  · intro j hj
    obtain ⟨hj', he⟩ := hsub j hj
    dsimp only
    rw [he]
    exact h.live j hj'
  · exact h.loadsSorted
  · intro j j' s s' hj hj'
    exact h.storesSorted j j' s s' (hstore j s hj) (hstore j' s' hj')
  · exact h.loadPlace
  · intro j s hj
    exact h.storePlace j s (hstore j s hj)
  · intro i q hi
    exact ⟨hwindow i q hi, fun j s hj => (h.window i q hi).2 j s (hstore j s hj)⟩
  · exact hhead
  · exact hend
  · intro j hj hlt
    obtain ⟨hj', he⟩ := hsub j hj
    dsimp only
    rw [he]
    exact h.before j hj' hlt
  · intro j hj hle
    obtain ⟨hj', he⟩ := hsub j hj
    dsimp only
    rw [he]
    exact h.after j hj' hle

/-- Loads leave. -/
theorem RepAt.shrinkLoads (h : RepAt u w) {lq : CircularQueue LSQEntry} (hfits : lq.Fits)
    (hsize : (lq.size : ℤ) = u.loads - 1)
    (hsub : ∀ i, lq.IsValidIdx i → u.loadQueue.IsValidIdx i ∧ lq.get i = u.loadQueue.get i) :
    RepAt { u with loadQueue := lq, loads := u.loads - 1 } w := by
  have hload : ∀ i q, LSQUnit.LoadAt { u with loadQueue := lq, loads := u.loads - 1 } i q →
      u.LoadAt i q := by
    rintro i q ⟨hi, hq⟩
    obtain ⟨hi', he⟩ := hsub i hi
    exact ⟨hi', he ▸ hq⟩
  exact
    { lqFits := hfits
      sqFits := h.sqFits
      loads := hsize.symm
      stores := h.stores
      storesToWB := h.storesToWB
      clean := h.clean
      sent := h.sent
      loadInst := fun i hi => by
        obtain ⟨hi', he⟩ := hsub i hi
        obtain ⟨q, hq⟩ := h.loadInst i hi'
        exact ⟨q, hi, by dsimp only; rw [he]; exact hq.2⟩
      storeInst := h.storeInst
      live := h.live
      loadsSorted := fun i i' q q' hi hi' =>
        h.loadsSorted i i' q q' (hload i q hi) (hload i' q' hi')
      storesSorted := h.storesSorted
      loadPlace := fun i q hi => h.loadPlace i q (hload i q hi)
      storePlace := h.storePlace
      window := fun i q hi => h.window i q (hload i q hi)
      head_le := h.head_le
      le_end := h.le_end
      before := h.before
      after := h.after }

end

end Gem5.Lsq
