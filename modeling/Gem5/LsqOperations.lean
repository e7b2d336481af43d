/-
# The operations of the load/store unit keep its representation

One lemma for each operation of `LSQUnit`: insertion, execution, commit, completion and squash keep
`RepAt`, with what each of them leaves of the stores that were not written back, of the loads and of
the stall record.
-/
import Gem5.LsqRepresentation

open Runs

namespace Gem5.Lsq

section

variable {u u' : LSQUnit} {w : ℕ} {q : InstSeqNum}

/-! ## Insertion -/

theorem setInst_twice (u : LSQUnit) (q : InstSeqNum) (i j : DynInst) :
    (u.setInst q i).setInst q j = u.setInst q j := by
  unfold LSQUnit.setInst
  rw [Function.update_idem]

theorem framed_startHtm (h : u.startHtm q = .ok u') : Framed u u' := by
  unfold LSQUnit.startHtm at h
  dsimp only at h
  split at h
  · cases h
  split at h
  · cases h
    exact ⟨.refl _, .refl _, rfl, rfl, rfl, rfl, rfl, rfl, rfl,
      keepsSlots_setInst (by exact ⟨rfl, rfl, rfl, rfl⟩)⟩
  · cases h
    exact ⟨.refl _, .refl _, rfl, rfl, rfl, rfl, rfl, rfl, rfl,
      keepsSlots_setInst (by exact ⟨rfl, rfl, rfl, rfl⟩)⟩

theorem framed_trackHtm (h : u.trackHtm q = .ok u') : Framed u u' := by
  unfold LSQUnit.trackHtm at h
  obtain ⟨v, hv, h⟩ := bind_eq_ok.mp h
  have h1 : Framed u v := by
    split at hv
    · exact framed_startHtm hv
    · cases hv
      exact .refl _
  cases h
  split
  · exact h1.trans ⟨.refl _, .refl _, rfl, rfl, rfl, rfl, rfl, rfl, rfl, fun _ => .refl _⟩
  · exact h1

/-- A load younger than everything enters the load queue. -/
theorem RepAt.growLoads (h : RepAt u w) (hy : u.Youngest q) (hfull : u.loadQueue.full = false)
    {x : LSQEntry} {i : DynInst} (hx : x.inst = some q) (hkind : i.isLoad = true)
    (hidx : i.lqIdx = u.loadQueue.head + u.loadQueue.size)
    (hit : i.sqIt = u.storeQueue.head + u.storeQueue.size) :
    let v := { u.setInst q i with
      loadQueue := u.loadQueue.advanceTail.set u.loadQueue.advanceTail.tail x
      loads := u.loads + 1 }
    RepAt v w ∧ Carries w u v ∧ v.outstanding = u.outstanding ∧
      ∀ i q, u.LoadAt i q → v.LoadAt i q := by
  intro v
  obtain ⟨hfits, hvalid, hold, hnew⟩ := grown_valid h.lqFits hfull x
  have hsize : v.loadQueue.size = u.loadQueue.size + 1 := by
    show (u.loadQueue.advanceTail).size = _
    rw [CircularQueue.advanceTail_of_not_full hfull]
  have hinst : ∀ s, s < q → v.insts s = u.insts s := fun s hs =>
    LSQUnit.insts_setInst_of_ne u i hs.ne
  have hself : v.insts q = i := LSQUnit.insts_setInst u q i
  have hload : ∀ k p, v.LoadAt k p →
      u.LoadAt k p ∨ (k = u.loadQueue.head + u.loadQueue.size ∧ p = q) := by
    rintro k p ⟨hk, hp⟩
    rcases (hvalid k).mp hk with hk' | rfl
    · exact .inl ⟨hk', (congrArg LSQEntry.inst (hold k hk')).symm.trans hp⟩
    · rw [show v.loadQueue.get _ = x from hnew, hx] at hp
      exact .inr ⟨rfl, (Option.some.inj hp).symm⟩
  have hkept : ∀ k p, u.LoadAt k p → v.LoadAt k p := fun k p hk =>
    ⟨(hvalid k).mpr (.inl hk.1), (congrArg LSQEntry.inst (hold k hk.1)).trans hk.2⟩
  refine ⟨?_, ⟨rfl, rfl, rfl, rfl, fun _ _ _ hj => hj, fun _ _ hj hc => ⟨hj, hc⟩⟩, rfl, hkept⟩
  constructor
  · exact hfits
  · exact h.sqFits
  · rw [hsize]
    show u.loads + 1 = _
    rw [h.loads]
    push_cast
    rfl
  · exact h.stores
  · exact h.storesToWB
  · exact h.clean
  · exact h.sent
  · intro k hk
    rcases (hvalid k).mp hk with hk' | rfl
    · obtain ⟨p, hp⟩ := h.loadInst k hk'
      exact ⟨p, hkept k p hp⟩
    · exact ⟨q, hk, (congrArg LSQEntry.inst hnew).trans hx⟩
  · exact h.storeInst
  · exact h.live
  · intro k k' p p' hk hk' hlt
    rcases hload k' p' hk' with hu' | ⟨rfl, rfl⟩
    · rcases hload k p hk with hu | ⟨rfl, -⟩
      · exact h.loadsSorted k k' p p' hu hu' hlt
      · exact absurd (hlt.trans hu'.1.2) (lt_irrefl _)
    · rcases hload k p hk with hu | ⟨rfl, -⟩
      · exact hy.1 k p hu
      · exact absurd hlt (lt_irrefl _)
  · exact h.storesSorted
  · intro k p hk
    rcases hload k p hk with hu | ⟨rfl, rfl⟩
    · rw [hinst p (hy.1 k p hu)]
      exact h.loadPlace k p hu
    · rw [hself]
      exact ⟨hkind, hidx⟩
  · intro j s hj
    rw [hinst s (hy.2 j s hj)]
    exact h.storePlace j s hj
  · intro k p hk
    rcases hload k p hk with hu | ⟨rfl, rfl⟩
    · rw [hinst p (hy.1 k p hu)]
      exact h.window k p hu
    · rw [hself, hit]
      exact ⟨le_rfl, fun j s hj _ => hy.2 j s hj⟩
  · exact h.head_le
  · exact h.le_end
  · exact h.before
  · exact h.after

/-- `insertLoad` -/
theorem RepAt.insertLoad (h : RepAt u w) {i : DynInst} (hkind : i.isLoad = true)
    (hy : u.Youngest q) (hok : (u.setInst q i).insertLoad q = .ok u') :
    RepAt u' w ∧ Carries w u u' ∧ u'.outstanding = u.outstanding ∧
      ∀ i q, u.LoadAt i q → u'.LoadAt i q := by
  unfold LSQUnit.insertLoad at hok
  obtain ⟨_, hfull, hok⟩ := bind_eq_ok.mp hok
  obtain ⟨_, _, hok⟩ := bind_eq_ok.mp hok
  obtain ⟨back, hback, hok⟩ := bind_eq_ok.mp hok
  obtain ⟨_, _, hok⟩ := bind_eq_ok.mp hok
  rw [require_eq_ok, Bool.not_eq_true'] at hfull
  have hfull' : u.loadQueue.full = false := hfull
  have hinst : back.inst = some q := by
    unfold LSQEntry.set at hback
    obtain ⟨_, _, hback⟩ := bind_eq_ok.mp hback
    cases hback
    rfl
  rw [setInst_twice] at hok
  have htail : u.loadQueue.advanceTail.tail = u.loadQueue.head + u.loadQueue.size := by
    rw [CircularQueue.advanceTail_of_not_full hfull']
    rfl
  obtain ⟨h1, h2, h3, h4⟩ := h.growLoads hy hfull' hinst
    (i := { (u.setInst q i).insts q with
      sqIt := u.storeQueue.endIdx
      lqIdx := u.loadQueue.advanceTail.tail
      lqIt := u.loadQueue.advanceTail.tail })
    (by dsimp only; rw [LSQUnit.insts_setInst]; exact hkind) htail
    (CircularQueue.endIdx_eq h.sqFits)
  have hf := framed_trackHtm hok
  exact ⟨h1.framed hf, h2.trans (hf.carries w), hf.outstanding.trans h3,
    fun k p hk => (hf.loadAt k p).mpr (h4 k p hk)⟩

/-- A store younger than everything enters the store queue. -/
theorem RepAt.growStores (h : RepAt u w) (hy : u.Youngest q) (hfull : u.storeQueue.full = false)
    {x : SQEntry} {i : DynInst} (hx : x.status = ⟨some q, true, false, false, false⟩)
    (hkind : i.isLoad = false) (hidx : i.sqIdx = u.storeQueue.head + u.storeQueue.size) :
    let v := { u.setInst q i with
      storeQueue := u.storeQueue.advanceTail.set u.storeQueue.advanceTail.tail x
      stores := u.stores + 1 }
    RepAt v w ∧ Carries w u v ∧ v.outstanding = u.outstanding := by
  intro v
  obtain ⟨hfits, hvalid, hold, hnew⟩ := grown_valid h.sqFits hfull x
  have hinstx : x.inst = some q := congrArg Status.inst hx
  have hvalidx : x.valid = true := congrArg Status.valid hx
  have hcommittedx : x.committed = false := congrArg Status.committed hx
  have hcompletedx : x.completed = false := congrArg Status.completed hx
  have hsize : v.storeQueue.size = u.storeQueue.size + 1 := by
    show (u.storeQueue.advanceTail).size = _
    rw [CircularQueue.advanceTail_of_not_full hfull]
  have hhead : v.storeQueue.head = u.storeQueue.head := by
    show (u.storeQueue.advanceTail).head = _
    rw [CircularQueue.advanceTail_of_not_full hfull]
  -- the slots of the queue other than the new one
  have hslots : ∀ k, v.storeQueue.get k = u.storeQueue.get k ∨ v.storeQueue.get k = x := by
    intro k
    rcases CircularQueue.get_set_cases u.storeQueue.advanceTail u.storeQueue.advanceTail.tail k x
      with he | ⟨-, he⟩
    · refine .inl (he.trans ?_)
      rw [CircularQueue.advanceTail_of_not_full hfull]
      rfl
    · exact .inr he
  have hinst : ∀ s, s < q → v.insts s = u.insts s := fun s hs =>
    LSQUnit.insts_setInst_of_ne u i hs.ne
  have hself : v.insts q = i := LSQUnit.insts_setInst u q i
  have hstore : ∀ j s, v.StoreAt j s →
      u.StoreAt j s ∨ (j = u.storeQueue.head + u.storeQueue.size ∧ s = q) := by
    rintro j s ⟨hj, hs⟩
    rcases (hvalid j).mp hj with hj' | rfl
    · exact .inl ⟨hj', (congrArg (fun y : SQEntry => y.inst) (hold j hj')).symm.trans hs⟩
    · rw [show v.storeQueue.get _ = x from hnew, hinstx] at hs
      exact .inr ⟨rfl, (Option.some.inj hs).symm⟩
  have hkept : ∀ j s, u.StoreAt j s → v.StoreAt j s := fun j s hj =>
    ⟨(hvalid j).mpr (.inl hj.1), (congrArg (fun y : SQEntry => y.inst) (hold j hj.1)).trans hj.2⟩
  have hwaits := CircularQueue.count_grow (Status.waits ∘ SQEntry.status) h.sqFits hfull x
  have hout := CircularQueue.count_grow (Status.outstanding ∘ SQEntry.status) h.sqFits hfull x
  rw [Function.comp_apply, hx] at hwaits hout
  refine ⟨?_, ⟨rfl, rfl, rfl, rfl, fun j s _ hj => hkept j s hj, fun j _ hj hc =>
    ⟨(hvalid j).mpr (.inl hj), (congrArg SQEntry.committed (hold j hj)).trans hc⟩⟩, hout⟩
  constructor
  · exact h.lqFits
  · exact hfits
  · exact h.loads
  · rw [hsize]
    show u.stores + 1 = _
    rw [h.stores]
    push_cast
    rfl
  · show u.storesToWB = _
    rw [h.storesToWB]
    exact congrArg _ hwaits.symm
  · intro k hk
    rcases hslots k with he | he
    · rw [he] at hk ⊢
      exact h.clean k hk
    · rw [he, hvalidx] at hk
      cases hk
  · intro k hk
    rcases hslots k with he | he
    · rw [he] at hk ⊢
      exact h.sent k hk
    · rw [he, hcommittedx] at hk
      cases hk
  · exact h.loadInst
  · intro j hj
    rcases (hvalid j).mp hj with hj' | rfl
    · obtain ⟨s, hs⟩ := h.storeInst j hj'
      exact ⟨s, hkept j s hs⟩
    · exact ⟨q, hj, (congrArg (fun y : SQEntry => y.inst) hnew).trans hinstx⟩
  · intro j hj
    rcases (hvalid j).mp hj with hj' | rfl
    · rw [show v.storeQueue.get j = _ from hold j hj']
      exact h.live j hj'
    · rw [show v.storeQueue.get _ = x from hnew]
      exact hvalidx
  · exact h.loadsSorted
  · intro j j' s s' hj hj' hlt
    rcases hstore j' s' hj' with hu' | ⟨rfl, rfl⟩
    · rcases hstore j s hj with hu | ⟨rfl, -⟩
      · exact h.storesSorted j j' s s' hu hu' hlt
      · exact absurd (hlt.trans hu'.1.2) (lt_irrefl _)
    · rcases hstore j s hj with hu | ⟨rfl, -⟩
      · exact hy.2 j s hu
      · exact absurd hlt (lt_irrefl _)
  · intro k p hk
    rw [hinst p (hy.1 k p hk)]
    exact h.loadPlace k p hk
  · intro j s hj
    rcases hstore j s hj with hu | ⟨rfl, rfl⟩
    · rw [hinst s (hy.2 j s hu)]
      exact h.storePlace j s hu
    · rw [hself]
      exact ⟨hkind, hidx⟩
  · intro k p hk
    rw [hinst p (hy.1 k p hk), hhead, hsize]
    obtain ⟨hle, hlt⟩ := h.window k p hk
    refine ⟨Nat.le_succ_of_le hle, fun j s hj hjt => ?_⟩
    rcases hstore j s hj with hu | ⟨rfl, -⟩
    · exact hlt j s hu hjt
    · exact absurd hle (not_le.mpr hjt)
  · rw [hhead]
    exact h.head_le
  · rw [hhead, hsize]
    exact Nat.le_succ_of_le h.le_end
  · intro j hj hlt
    rcases (hvalid j).mp hj with hj' | rfl
    · rw [show v.storeQueue.get j = _ from hold j hj']
      exact h.before j hj' hlt
    · exact absurd h.le_end (not_le.mpr hlt)
  · intro j hj hle
    rcases (hvalid j).mp hj with hj' | rfl
    · rw [show v.storeQueue.get j = _ from hold j hj']
      exact h.after j hj' hle
    · rw [show v.storeQueue.get _ = x from hnew]
      exact hcompletedx

/-- `insertStore`: the slot of the new store is clean. -/
theorem RepAt.insertStore (h : RepAt u w) {i : DynInst} (hkind : i.isLoad = false)
    (hy : u.Youngest q) (hok : (u.setInst q i).insertStore q = .ok u') :
    RepAt u' w ∧ Carries w u u' ∧ u'.outstanding = u.outstanding ∧
      u'.loadQueue = u.loadQueue := by
  unfold LSQUnit.insertStore at hok
  obtain ⟨_, hfull, hok⟩ := bind_eq_ok.mp hok
  obtain ⟨_, _, hok⟩ := bind_eq_ok.mp hok
  obtain ⟨_, _, hok⟩ := bind_eq_ok.mp hok
  obtain ⟨back, hback, hok⟩ := bind_eq_ok.mp hok
  cases hok
  rw [require_eq_ok, Bool.not_eq_true'] at hfull
  have hfull' : u.storeQueue.full = false := hfull
  have htail : u.storeQueue.advanceTail.tail = u.storeQueue.head + u.storeQueue.size := by
    rw [CircularQueue.advanceTail_of_not_full hfull']
    rfl
  have hslot : u.storeQueue.advanceTail.back =
      u.storeQueue.get (u.storeQueue.head + u.storeQueue.size) := by
    unfold CircularQueue.back
    rw [htail, CircularQueue.advanceTail_of_not_full hfull']
    rfl
  have hstatus : back.status = ⟨some q, true, false, false, false⟩ := by
    unfold SQEntry.set LSQEntry.set at hback
    obtain ⟨base, hbase, hback⟩ := bind_eq_ok.mp hback
    obtain ⟨_, hinvalid, hbase⟩ := bind_eq_ok.mp hbase
    cases hbase
    cases hback
    rw [require_eq_ok, Bool.not_eq_true'] at hinvalid
    have hinvalid' : u.storeQueue.advanceTail.back.valid = false := hinvalid
    rw [hslot] at hinvalid'
    obtain ⟨h1, h2, h3⟩ := h.clean _ hinvalid'
    show Status.mk (some q) true u.storeQueue.advanceTail.back.canWB
      u.storeQueue.advanceTail.back.committed u.storeQueue.advanceTail.back.completed = _
    rw [hslot, h1, h2, h3]
  rw [setInst_twice]
  obtain ⟨h1, h2, h3⟩ := h.growStores hy hfull' hstatus
    (i := { (u.setInst q i).insts q with
      sqIdx := u.storeQueue.advanceTail.tail
      lqIdx := u.loadQueue.tail + 1
      lqIt := u.loadQueue.endIdx })
    (by dsimp only; rw [LSQUnit.insts_setInst]; exact hkind) htail
  exact ⟨h1, h2, h3, rfl⟩

/-! ## Commit -/

/-- What a load leaving the queue keeps. -/
structure LoadsLeave (P : InstSeqNum → Prop) (u u' : LSQUnit) : Prop where
  carries : ∀ w, Carries w u u'
  outstanding : u'.outstanding = u.outstanding
  loadAt : ∀ i q, P q → u.LoadAt i q → u'.LoadAt i q

theorem RepAt.commitLoad (h : RepAt u w) (hok : u.commitLoad = .ok u') :
    RepAt u' w ∧ LoadsLeave (fun p => (u.loadQueue.get u.loadQueue.head).inst ≠ some p) u u' := by
  unfold LSQUnit.commitLoad at hok
  obtain ⟨_, _, hok⟩ := bind_eq_ok.mp hok
  obtain ⟨lq, hlq, hok⟩ := bind_eq_ok.mp hok
  cases hok
  rw [orFail_eq_ok] at hlq
  obtain ⟨hpos, hhead, hsize, -, hsub⟩ := CircularQueue.get_clearFront h.lqFits hlq
  have hloads := h.loads
  refine ⟨h.shrinkLoads (CircularQueue.fits_popFront (CircularQueue.fits_set h.lqFits _ _) hlq)
    (by omega) hsub, fun _ => ⟨rfl, rfl, rfl, rfl, fun _ _ _ hj => hj, fun _ _ hj hc => ⟨hj, hc⟩⟩,
    rfl, fun i p hp hi => ?_⟩
  have hne : i ≠ u.loadQueue.head := by
    rintro rfl
    exact hp hi.2
  have hlow := hi.1.1
  have hhigh := hi.1.2
  have hvalid : lq.IsValidIdx i := ⟨by omega, by omega⟩
  refine ⟨hvalid, ?_⟩
  dsimp only
  rw [(hsub i hvalid).2]
  exact hi.2

/-- A committed load is at most the youngest instruction that commits. -/
theorem headLoadDone_spec {y : InstSeqNum} {b : Bool} (hok : u.headLoadDone y = .ok b)
    (hb : b = true) : ∃ p, (u.loadQueue.get u.loadQueue.head).inst = some p ∧ p ≤ y := by
  unfold LSQUnit.headLoadDone at hok
  subst hb
  split at hok
  · cases hok
  · obtain ⟨p, hp, hok⟩ := bind_eq_ok.mp hok
    exact ⟨p, orFail_eq_ok.mp hp, of_decide_eq_true (Except.ok.inj hok)⟩

theorem RepAt.commitLoadsLoop {y : InstSeqNum} {k : ℕ} (h : RepAt u w)
    (hok : u.commitLoadsLoop y k = .ok u') : RepAt u' w ∧ LoadsLeave (fun p => y < p) u u' := by
  have hrefl : ∀ v : LSQUnit, LoadsLeave (fun p => y < p) v v := fun v =>
    ⟨fun w => .refl w v, rfl, fun _ _ _ hi => hi⟩
  -- one round keeps the younger loads
  have hround : ∀ v v', RepAt v w → v.headLoadDone y = .ok true → v.commitLoad = .ok v' →
      RepAt v' w ∧ LoadsLeave (fun p => y < p) v v' := by
    intro v v' hv hdone hcommit
    obtain ⟨p, hp, hle⟩ := headLoadDone_spec hdone rfl
    obtain ⟨h1, h2⟩ := hv.commitLoad hcommit
    refine ⟨h1, h2.carries, h2.outstanding, fun i q hq hi => h2.loadAt i q (fun he => ?_) hi⟩
    rw [hp] at he
    obtain rfl := Option.some.inj he
    exact absurd hq (not_lt.mpr hle)
  induction k generalizing u with
  | zero =>
    unfold LSQUnit.commitLoadsLoop at hok
    obtain ⟨b, hb, hok⟩ := bind_eq_ok.mp hok
    cases b with
    | false =>
      cases hok
      exact ⟨h, hrefl _⟩
    | true => exact hround u u' h hb hok
  | succ k ih =>
    unfold LSQUnit.commitLoadsLoop at hok
    obtain ⟨b, hb, hok⟩ := bind_eq_ok.mp hok
    cases b with
    | false =>
      cases hok
      exact ⟨h, hrefl _⟩
    | true =>
      obtain ⟨v, hv, hok⟩ := bind_eq_ok.mp hok
      obtain ⟨h1, h2⟩ := hround u v h hb hv
      obtain ⟨h3, h4⟩ := ih h1 hok
      exact ⟨h3, fun w => (h2.carries w).trans (h4.carries w),
        h4.outstanding.trans h2.outstanding,
        fun i q hq hi => h4.loadAt i q hq (h2.loadAt i q hq hi)⟩

/-- `commitLoads` -/
theorem RepAt.commitLoads {y : InstSeqNum} (h : RepAt u w) (hok : u.commitLoads y = .ok u') :
    RepAt u' w ∧ LoadsLeave (fun p => y < p) u u' := by
  unfold LSQUnit.commitLoads at hok
  obtain ⟨_, _, hok⟩ := bind_eq_ok.mp hok
  exact h.commitLoadsLoop hok

theorem RepAt.commitStoresLoop {y : InstSeqNum} {k i : ℕ} (h : RepAt u w)
    (hlow : u.storeQueue.head ≤ i) (hhigh : i + k = u.storeQueue.head + u.storeQueue.size)
    (hok : u.commitStoresLoop y k i = .ok u') :
    RepAt u' w ∧ Carries w u u' ∧ u'.outstanding = u.outstanding ∧
      u'.loadQueue = u.loadQueue := by
  induction k generalizing i u with
  | zero =>
    cases hok
    exact ⟨h, .refl w _, rfl, rfl⟩
  | succ k ih =>
    unfold LSQUnit.commitStoresLoop at hok
    obtain ⟨_, _, hok⟩ := bind_eq_ok.mp hok
    split at hok
    · exact ih h (Nat.le_succ_of_le hlow) (by omega) hok
    rename_i hcan
    obtain ⟨q, _, hok⟩ := bind_eq_ok.mp hok
    split at hok
    · cases hok
      exact ⟨h, .refl w _, rfl, rfl⟩
    obtain ⟨h1, h2, h3⟩ := h.allowWB (j := i) ⟨hlow, by omega⟩ (Bool.eq_false_iff.mpr hcan)
    obtain ⟨h4, h5, h6, h7⟩ := ih h1 (Nat.le_succ_of_le hlow)
      ((Nat.succ_add_eq_add_succ i k).trans hhigh) hok
    exact ⟨h4, h2.trans h5, h6.trans h3, h7⟩

/-- `commitStores` -/
theorem RepAt.commitStores {y : InstSeqNum} (h : RepAt u w) (hok : u.commitStores y = .ok u') :
    RepAt u' w ∧ Carries w u u' ∧ u'.outstanding = u.outstanding ∧
      u'.loadQueue = u.loadQueue := by
  unfold LSQUnit.commitStores at hok
  obtain ⟨_, _, hok⟩ := bind_eq_ok.mp hok
  exact h.commitStoresLoop le_rfl rfl hok

/-! ## Completion -/

/-- A completed store at the head leaves. -/
theorem RepAt.popStore (h : RepAt u w)
    (hdone : (u.storeQueue.get u.storeQueue.head).completed = true) (hok : u.popStore = .ok u') :
    RepAt u' w ∧ Carries w u u' ∧ u'.outstanding = u.outstanding ∧
      u'.loadQueue = u.loadQueue ∧ u'.insts = u.insts := by
  unfold LSQUnit.popStore at hok
  obtain ⟨sq, hsq, hok⟩ := bind_eq_ok.mp hok
  cases hok
  rw [orFail_eq_ok] at hsq
  obtain ⟨hpos, hhead, hsize, -, hsub⟩ := CircularQueue.get_clearFront h.sqFits hsq
  have hstores := h.stores
  have hvalid : u.storeQueue.IsValidIdx u.storeQueue.head := ⟨le_rfl, by omega⟩
  have hlt : u.storeQueue.head < w := by
    by_contra hge
    rw [h.after _ hvalid (not_lt.mp hge)] at hdone
    cases hdone
  have hend := h.le_end
  have hends : sq.head + sq.size = u.storeQueue.head + u.storeQueue.size := by omega
  have hnone : ∀ p : Status → Bool, (∀ st, st.completed = true → p st = false) →
      sq.count (p ∘ SQEntry.status) = u.storeQueue.count (p ∘ SQEntry.status) := by
    intro p hp
    have hcount := CircularQueue.count_clearFront (p ∘ SQEntry.status) h.sqFits hsq
    rw [Function.comp_apply, hp _ hdone] at hcount
    exact hcount
  have hout : sq.count (Status.outstanding ∘ SQEntry.status) = u.outstanding :=
    hnone _ fun st hst => by
      unfold Status.outstanding
      rw [hst, Bool.not_true, Bool.and_false]
  refine ⟨h.shrinkStores (CircularQueue.fits_popFront (CircularQueue.fits_set h.sqFits _ _) hsq)
    (by omega) hsub (CircularQueue.slots_clearFront hsq) (hnone _ fun st hst => ?_) (by omega)
    (by omega) fun i q hi => ?_, ⟨rfl, rfl, rfl, rfl, fun j s hw hj => ?_, fun j hw hj hc => ?_⟩,
    hout, rfl, rfl⟩
  · unfold Status.waits
    rw [hst, Bool.not_true, Bool.and_false]
  · rw [hends]
    exact (h.window i q hi).1
  · have hj' : sq.IsValidIdx j := ⟨by omega, by rw [hends]; exact hj.1.2⟩
    refine ⟨hj', ?_⟩
    dsimp only
    rw [(hsub j hj').2]
    exact hj.2
  · have hj' : sq.IsValidIdx j := ⟨by omega, by rw [hends]; exact hj.2⟩
    refine ⟨hj', ?_⟩
    dsimp only
    rw [(hsub j hj').2]
    exact hc

theorem RepAt.popStores {k : ℕ} (h : RepAt u w)
    (hdone : (u.storeQueue.get u.storeQueue.head).completed = true) (hok : u.popStores k = .ok u') :
    RepAt u' w ∧ Carries w u u' ∧ u'.outstanding = u.outstanding ∧
      u'.loadQueue = u.loadQueue ∧ u'.insts = u.insts := by
  induction k generalizing u with
  | zero => exact h.popStore hdone hok
  | succ k ih =>
    unfold LSQUnit.popStores at hok
    obtain ⟨v, hv, hok⟩ := bind_eq_ok.mp hok
    obtain ⟨h1, h2, h3, h4, h5⟩ := h.popStore hdone hv
    split at hok
    · rename_i hfront
      rw [Bool.and_eq_true] at hfront
      obtain ⟨h6, h7, h8, h9, h10⟩ := ih h1 hfront.1 hok
      exact ⟨h6, h2.trans h7, h8.trans h3, h9.trans h4, h10.trans h5⟩
    · cases hok
      exact ⟨h1, h2, h3, h4, h5⟩

/-- **`completeStore`**: one store fewer waits, and the stall on it ends. -/
theorem RepAt.completeStore {j : ℕ} {s : InstSeqNum} (h : RepAt u w) (hj : u.StoreAt j s)
    (hlt : j < w) (hnew : (u.storeQueue.get j).completed = false)
    (hok : u.completeStore j = .ok u') :
    ∃ v, RepAt v w ∧ Carries w u v ∧
      v.outstanding + (u.storeQueue.get j).committed.toNat = u.outstanding ∧
      v.loadQueue = u.loadQueue ∧ v.insts = u.insts ∧
      u' = (v.unstall s).setInst s { (v.unstall s).insts s with completed := true } := by
  unfold LSQUnit.completeStore at hok
  obtain ⟨_, _, hok⟩ := bind_eq_ok.mp hok
  obtain ⟨s', hs', hok⟩ := bind_eq_ok.mp hok
  rw [orFail_eq_ok, hj.2] at hs'
  obtain rfl := Option.some.inj hs'
  obtain ⟨v, hv, hok⟩ := bind_eq_ok.mp hok
  cases hok
  obtain ⟨h1, h2, h3⟩ := h.setCompleted hj.1 hlt hnew
  split at hv
  · rename_i hhead
    have hhead' : j = u.storeQueue.head := hhead
    subst hhead'
    obtain ⟨h4, h5, h6, h7, h8⟩ := h1.popStores
      (by dsimp only; rw [CircularQueue.set_head, CircularQueue.get_set_self]) hv
    exact ⟨v, h4, h2.trans h5, by rw [h6]; exact h3, h7, h8, rfl⟩
  · cases hv
    exact ⟨_, h1, h2, h3, rfl, rfl, rfl⟩

/-- Neither the record of a stall nor the completion of an instruction matters to the queues. -/
theorem RepAt.unstall (h : RepAt u w) (q : InstSeqNum) : RepAt (u.unstall q) w := by
  unfold LSQUnit.unstall
  split
  · exact h.same (.refl _) (.refl _) rfl rfl rfl fun _ => .refl _
  · exact h

/-! ## Squash -/

/-- What becomes of the record of a stall when the loads younger than `n` are squashed: it stays,
with its load, or ends because its load is squashed. -/
def RecordSquashed (n : InstSeqNum) (u u' : LSQUnit) : Prop :=
  (u'.stalled = u.stalled ∧ u'.stallingStoreIsn = u.stallingStoreIsn ∧
    u'.stallingLoadIdx = u.stallingLoadIdx ∧
    (u.stalled = true → ∀ p, u.LoadAt u.stallingLoadIdx p → u'.LoadAt u.stallingLoadIdx p)) ∨
  (u'.stalled = false ∧ u.stalled = true ∧ ∃ p, u.LoadAt u.stallingLoadIdx p ∧ n < p)

/-- What squashing the loads younger than `n` changes. -/
structure LoadsSquashed (n : InstSeqNum) (u u' : LSQUnit) : Prop where
  storeQueue : u'.storeQueue = u.storeQueue
  storeWBIt : u'.storeWBIt = u.storeWBIt
  loadAt : ∀ i p, p ≤ n → u.LoadAt i p → u'.LoadAt i p
  sub : ∀ i p, u'.LoadAt i p → u.LoadAt i p
  record : RecordSquashed n u u'

theorem LoadsSquashed.refl (n : InstSeqNum) (u : LSQUnit) : LoadsSquashed n u u :=
  ⟨rfl, rfl, fun _ _ _ hi => hi, fun _ _ hi => hi, .inl ⟨rfl, rfl, rfl, fun _ _ hp => hp⟩⟩

theorem LoadsSquashed.trans {n : InstSeqNum} {t v : LSQUnit} (h : LoadsSquashed n t u)
    (h' : LoadsSquashed n u v) : LoadsSquashed n t v where
  storeQueue := h'.storeQueue.trans h.storeQueue
  storeWBIt := h'.storeWBIt.trans h.storeWBIt
  loadAt i p hp hi := h'.loadAt i p hp (h.loadAt i p hp hi)
  sub i p hi := h.sub i p (h'.sub i p hi)
  record := by
    rcases h.record with ⟨h1, h2, h3, h4⟩ | ⟨h1, h2, h3⟩
    · rcases h'.record with ⟨k1, k2, k3, k4⟩ | ⟨k1, k2, p, hp, hlt⟩
      · refine .inl ⟨k1.trans h1, k2.trans h2, k3.trans h3, fun hs p hp => ?_⟩
        have := k4 (h1.trans hs) p (by rw [h3]; exact h4 hs p hp)
        rw [h3] at this
        exact this
      · rw [h3] at hp
        exact .inr ⟨k1, h1.symm.trans k2, p, h.sub _ p hp, hlt⟩
    · rcases h'.record with ⟨k1, -, -, -⟩ | ⟨-, k2, -⟩
      · exact .inr ⟨k1.trans h1, h2, h3⟩
      · rw [h1] at k2
        cases k2

/-- One round of the first loop of `squash`. -/
theorem RepAt.squashLoad {n : InstSeqNum} (h : RepAt u w) (hq : u.loadQueue.back.inst = some q)
    (hlt : n < q) (hok : u.squashLoad q = .ok u') :
    RepAt u' w ∧ LoadsSquashed n u u' ∧ u'.loadQueue.size + 1 = u.loadQueue.size := by
  unfold LSQUnit.squashLoad at hok
  obtain ⟨lq, hlq, hok⟩ := bind_eq_ok.mp hok
  cases hok
  rw [orFail_eq_ok] at hlq
  obtain ⟨hpos, hhead, hsize, -, hsub⟩ := CircularQueue.get_clearBack h.lqFits hlq
  have hloads := h.loads
  have hheadPos := h.lqFits.head_pos
  have htail : u.loadQueue.tail = u.loadQueue.head + u.loadQueue.size - 1 := rfl
  have hback : u.LoadAt u.loadQueue.tail q := ⟨⟨by omega, by omega⟩, hq⟩
  have hkept : ∀ i p, i ≠ u.loadQueue.tail → u.LoadAt i p →
      lq.IsValidIdx i ∧ (lq.get i).inst = some p := by
    intro i p hne hi
    have hlow := hi.1.1
    have hhigh := hi.1.2
    have hvalid : lq.IsValidIdx i := ⟨by omega, by omega⟩
    refine ⟨hvalid, ?_⟩
    rw [(hsub i hvalid).2.2]
    exact hi.2
  have hold : ∀ i p, p ≤ n → u.LoadAt i p → lq.IsValidIdx i ∧ (lq.get i).inst = some p := by
    intro i p hp hi
    refine hkept i p ?_ hi
    rintro rfl
    exact absurd hlt (not_lt.mpr (hi.unique hback ▸ hp))
  have hsubset : ∀ i p, lq.IsValidIdx i ∧ (lq.get i).inst = some p → u.LoadAt i p := by
    rintro i p ⟨hi, hp⟩
    obtain ⟨hi', -, he⟩ := hsub i hi
    exact ⟨hi', he ▸ hp⟩
  have hrep : RepAt { u.setInst q { u.insts q with squashed := true } with
      loadQueue := lq, loads := u.loads - 1 } w :=
    (h.framed (framed_setInst (by exact ⟨rfl, rfl, rfl, rfl⟩))).shrinkLoads
      (CircularQueue.fits_popBack (CircularQueue.fits_set h.lqFits _ _) hlq)
      (by show (lq.size : ℤ) = u.loads - 1; omega) fun i hi => ⟨(hsub i hi).1, (hsub i hi).2.2⟩
  by_cases hstall : u.stalled && u.loadQueue.tail = u.stallingLoadIdx
  · rw [if_pos hstall]
    rw [Bool.and_eq_true, decide_eq_true_eq] at hstall
    refine ⟨hrep.same (.refl _) (.refl _) rfl rfl rfl fun _ => .refl _,
      ⟨rfl, rfl, hold, hsubset, .inr ⟨rfl, hstall.1, q, ?_, hlt⟩⟩, ?_⟩
    · rw [← hstall.2]
      exact hback
    · show lq.size + 1 = _
      omega
  · rw [if_neg hstall]
    rw [Bool.and_eq_true, decide_eq_true_eq, not_and] at hstall
    refine ⟨hrep.same (.refl _) (.refl _) rfl rfl rfl fun _ => .refl _,
      ⟨rfl, rfl, hold, hsubset, .inl ⟨rfl, rfl, rfl, fun hs p hp => ?_⟩⟩, ?_⟩
    · exact hkept _ p (Ne.symm (hstall hs)) hp
    · show lq.size + 1 = _
      omega

theorem RepAt.loadAt_size (h : RepAt u w) {i : ℕ} {p : InstSeqNum} (hi : u.LoadAt i p) :
    u.loads ≠ 0 := by
  have hloads := h.loads
  have hlow := hi.1.1
  have hhigh := hi.1.2
  omega

/-- The back of the load queue is the youngest load. -/
theorem RepAt.loadAt_le_back (h : RepAt u w) (hq : u.loadQueue.back.inst = some q) {i : ℕ}
    {p : InstSeqNum} (hi : u.LoadAt i p) : p ≤ q := by
  have hlow := hi.1.1
  have hhigh := hi.1.2
  have htail : u.loadQueue.tail = u.loadQueue.head + u.loadQueue.size - 1 := rfl
  exact h.loadAt_le hi ⟨⟨by omega, by omega⟩, hq⟩ (by omega)

/-- **The first loop of `squash`** leaves no load younger than `n`. -/
theorem RepAt.squashLoads {n : InstSeqNum} {k : ℕ} (h : RepAt u w) (hk : u.loadQueue.size ≤ k)
    (hok : u.squashLoads n k = .ok u') :
    RepAt u' w ∧ LoadsSquashed n u u' ∧ ∀ i p, u'.LoadAt i p → p ≤ n := by
  induction k generalizing u with
  | zero =>
    unfold LSQUnit.squashLoads at hok
    have hloads := h.loads
    rw [if_pos (by omega)] at hok
    cases hok
    exact ⟨h, .refl n _, fun i p hi => absurd (by omega) (h.loadAt_size hi)⟩
  | succ k ih =>
    unfold LSQUnit.squashLoads at hok
    split at hok
    · rename_i h0
      cases hok
      exact ⟨h, .refl n _, fun i p hi => absurd h0 (h.loadAt_size hi)⟩
    split at hok
    · cases hok
    rename_i q hq
    split at hok
    · rename_i hlt
      obtain ⟨v, hv, hok⟩ := bind_eq_ok.mp hok
      obtain ⟨h1, h2, h3⟩ := h.squashLoad hq hlt hv
      obtain ⟨h4, h5, h6⟩ := ih h1 (by omega) hok
      exact ⟨h4, h2.trans h5, h6⟩
    · rename_i hle
      cases hok
      exact ⟨h, .refl n _, fun i p hi => (h.loadAt_le_back hq hi).trans (not_lt.mp hle)⟩

/-- What squashing the stores younger than `n` keeps. -/
structure StoresSquashed (n : InstSeqNum) (u u' : LSQUnit) : Prop where
  loadQueue : u'.loadQueue = u.loadQueue
  storeWBIt : u'.storeWBIt = u.storeWBIt
  stalled : u'.stalled = u.stalled
  stallingStoreIsn : u'.stallingStoreIsn = u.stallingStoreIsn
  stallingLoadIdx : u'.stallingLoadIdx = u.stallingLoadIdx
  outstanding : u'.outstanding = u.outstanding
  storeAt : ∀ j s, s ≤ n → u.StoreAt j s → u'.StoreAt j s
  committed : ∀ j, u.storeQueue.IsValidIdx j → (u.storeQueue.get j).committed = true →
    u'.storeQueue.IsValidIdx j ∧ (u'.storeQueue.get j).committed = true

theorem StoresSquashed.refl (n : InstSeqNum) (u : LSQUnit) : StoresSquashed n u u :=
  ⟨rfl, rfl, rfl, rfl, rfl, rfl, fun _ _ _ hj => hj, fun _ hj hc => ⟨hj, hc⟩⟩

theorem StoresSquashed.trans {n : InstSeqNum} {t v : LSQUnit} (h : StoresSquashed n t u)
    (h' : StoresSquashed n u v) : StoresSquashed n t v where
  loadQueue := h'.loadQueue.trans h.loadQueue
  storeWBIt := h'.storeWBIt.trans h.storeWBIt
  stalled := h'.stalled.trans h.stalled
  stallingStoreIsn := h'.stallingStoreIsn.trans h.stallingStoreIsn
  stallingLoadIdx := h'.stallingLoadIdx.trans h.stallingLoadIdx
  outstanding := h'.outstanding.trans h.outstanding
  storeAt j s hs hj := h'.storeAt j s hs (h.storeAt j s hs hj)
  committed j hj hc := h'.committed j (h.committed j hj hc).1 (h.committed j hj hc).2

/-- One round of the second loop of `squash`: the store has not been written back. -/
theorem RepAt.squashStore {n : InstSeqNum} (h : RepAt u w) (hloads : ∀ i p, u.LoadAt i p → p ≤ n)
    (hq : u.storeQueue.back.inst = some q) (hlt : n < q) (hcan : u.storeQueue.back.canWB = false)
    (hok : u.squashStore q = .ok u') : RepAt u' w ∧ StoresSquashed n u u' := by
  unfold LSQUnit.squashStore at hok
  obtain ⟨_, _, hok⟩ := bind_eq_ok.mp hok
  obtain ⟨sq, hsq, hok⟩ := bind_eq_ok.mp hok
  cases hok
  rw [orFail_eq_ok] at hsq
  obtain ⟨hpos, hhead, hsize, -, hsub⟩ := CircularQueue.get_clearBack h.sqFits hsq
  have hstores := h.stores
  have hheadPos := h.sqFits.head_pos
  have htail : u.storeQueue.tail = u.storeQueue.head + u.storeQueue.size - 1 := rfl
  have hvalid : u.storeQueue.IsValidIdx u.storeQueue.tail := ⟨by omega, by omega⟩
  have hwb : w ≤ u.storeQueue.tail := by
    by_contra hgt
    have := h.before _ hvalid (not_le.mp hgt)
    rw [show u.storeQueue.get u.storeQueue.tail = u.storeQueue.back from rfl, hcan] at this
    cases this
  have hcommitted : (u.storeQueue.get u.storeQueue.tail).committed = false := by
    by_contra hc
    have := h.sent _ (Bool.not_eq_false _ ▸ hc)
    rw [show u.storeQueue.get u.storeQueue.tail = u.storeQueue.back from rfl, hcan] at this
    cases this
  have hnone : ∀ p : Status → Bool, p (u.storeQueue.get u.storeQueue.tail).status = false →
      sq.count (p ∘ SQEntry.status) = u.storeQueue.count (p ∘ SQEntry.status) := by
    intro p hp
    have hcount := CircularQueue.count_clearBack (p ∘ SQEntry.status) h.sqFits hsq
    rw [Function.comp_apply, hp] at hcount
    exact hcount
  have hkept : ∀ j, j ≠ u.storeQueue.tail → u.storeQueue.IsValidIdx j →
      sq.IsValidIdx j ∧ sq.get j = u.storeQueue.get j := by
    intro j hne hj
    have hlow := hj.1
    have hhigh := hj.2
    have hj' : sq.IsValidIdx j := ⟨by omega, by omega⟩
    exact ⟨hj', (hsub j hj').2.2⟩
  have hhead' := h.head_le
  refine ⟨(h.framed (framed_setInst (by exact ⟨rfl, rfl, rfl, rfl⟩))).shrinkStores
    (CircularQueue.fits_popBack (CircularQueue.fits_set h.sqFits _ _) hsq)
    (by show (sq.size : ℤ) = u.stores - 1; omega) (fun j hj => ⟨(hsub j hj).1, (hsub j hj).2.2⟩)
    (CircularQueue.slots_clearBack hsq) (hnone _ ?_) (by omega) (by omega) fun i p hi => ?_,
    rfl, rfl, rfl, rfl, rfl, hnone _ ?_, fun j s hs hj => ?_, fun j hj hc => ?_⟩
  · unfold Status.waits SQEntry.status
    rw [show (u.storeQueue.get u.storeQueue.tail).canWB = false from hcan]
    rfl
  · -- the loads left are older than the store
    have hi' : u.LoadAt i p := hi
    obtain ⟨hle, hold⟩ := h.window i p hi'
    rw [(keepsSlots_setInst (u := u) (q := q) (by exact ⟨rfl, rfl, rfl, rfl⟩) p).sqIt]
    by_contra hgt
    have := hold u.storeQueue.tail q ⟨hvalid, hq⟩ (by omega)
    exact absurd (hlt.trans this) (not_lt.mpr (hloads i p hi'))
  · unfold Status.outstanding SQEntry.status
    dsimp only
    rw [hcommitted]
    rfl
  · have hne : j ≠ u.storeQueue.tail := by
      rintro rfl
      obtain rfl := Option.some.inj (hj.2.symm.trans hq)
      exact absurd hlt (not_lt.mpr hs)
    obtain ⟨h1, h2⟩ := hkept j hne hj.1
    exact ⟨h1, (congrArg (fun x : SQEntry => x.inst) h2).trans hj.2⟩
  · have hne : j ≠ u.storeQueue.tail := by
      rintro rfl
      rw [hcommitted] at hc
      cases hc
    obtain ⟨h1, h2⟩ := hkept j hne hj
    exact ⟨h1, (congrArg SQEntry.committed h2).trans hc⟩

theorem RepAt.squashStores {n : InstSeqNum} {k : ℕ} (h : RepAt u w)
    (hloads : ∀ i p, u.LoadAt i p → p ≤ n) (hok : u.squashStores n k = .ok u') :
    RepAt u' w ∧ StoresSquashed n u u' := by
  induction k generalizing u with
  | zero =>
    unfold LSQUnit.squashStores at hok
    split at hok
    · cases hok
      exact ⟨h, .refl n _⟩
    split at hok
    · cases hok
    rename_i q hq
    split at hok
    · rename_i hlt
      split at hok
      · cases hok
        exact ⟨h, .refl n _⟩
      · rename_i hcan
        exact h.squashStore hloads hq hlt (Bool.eq_false_iff.mpr hcan) hok
    · cases hok
      exact ⟨h, .refl n _⟩
  | succ k ih =>
    unfold LSQUnit.squashStores at hok
    split at hok
    · cases hok
      exact ⟨h, .refl n _⟩
    split at hok
    · cases hok
    rename_i q hq
    split at hok
    · rename_i hlt
      split at hok
      · cases hok
        exact ⟨h, .refl n _⟩
      · rename_i hcan
        obtain ⟨v, hv, hok⟩ := bind_eq_ok.mp hok
        obtain ⟨h1, h2⟩ := h.squashStore hloads hq hlt (Bool.eq_false_iff.mpr hcan) hv
        obtain ⟨h3, h4⟩ := ih h1 (fun i p hi => hloads i p (by
          unfold LSQUnit.LoadAt at hi ⊢
          rw [h2.loadQueue] at hi
          exact hi)) hok
        exact ⟨h3, h2.trans h4⟩
    · cases hok
      exact ⟨h, .refl n _⟩

theorem framed_markSquashed (u : LSQUnit) (n : InstSeqNum) : Framed u (u.markSquashed n) := by
  refine ⟨.refl _, .refl _, rfl, rfl, rfl, rfl, rfl, rfl, rfl, fun p => ?_⟩
  unfold LSQUnit.markSquashed
  dsimp only
  split
  · exact ⟨rfl, rfl, rfl, rfl⟩
  · exact .refl _

/-- **`squash`**, loop by loop. -/
theorem RepAt.squash {n : InstSeqNum} (h : RepAt u w) (hok : u.squash n = .ok u') :
    RepAt u' w ∧ ∃ v v', LoadsSquashed n u v ∧ (∀ i p, v.LoadAt i p → p ≤ n) ∧ Framed v v' ∧
      StoresSquashed n v' u' := by
  unfold LSQUnit.squash at hok
  obtain ⟨v, hv, hok⟩ := bind_eq_ok.mp hok
  obtain ⟨uid, _, hok⟩ := bind_eq_ok.mp hok
  obtain ⟨h1, h2, h3⟩ := h.squashLoads le_rfl hv
  -- the update between the loops comes with `hok`
  have hstores : ∀ {k : ℕ} {v' : LSQUnit}, Framed v v' → v'.squashStores n k = .ok u' →
      RepAt u' w ∧ ∃ v v', LoadsSquashed n u v ∧ (∀ i p, v.LoadAt i p → p ≤ n) ∧ Framed v v' ∧
        StoresSquashed n v' u' := by
    intro k v' hframed hok
    obtain ⟨h4, h5⟩ := (h1.framed hframed).squashStores
      (fun i p hi => h3 i p ((hframed.loadAt i p).mp hi)) hok
    exact ⟨h4, v, v', h2, h3, hframed, h5⟩
  refine hstores ?_ hok
  exact ⟨.refl _, .refl _, rfl, rfl, rfl, rfl, rfl, rfl, rfl, fun _ => .refl _⟩

end

end Gem5.Lsq
