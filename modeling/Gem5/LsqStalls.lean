/-
# Loads that wait for a partially covering store

`read` records one pair of a store and a load when it holds a load that an older store covers in
part; the loads that wait are replayed when that store is written back.  The record keeps the loads
and the store together as long as the recorded load does not leave the load queue by a commit and the
store is not skipped as a prefetch: then a load that waits implies a recorded stall whose store is
still to be written back and whose load is in the queue, the write-back releases every load that
waits, and `squash` never meets the store of a recorded stall.

`read` leaves the record alone when it forwards the whole data to the recorded load, so the load can
commit with the stall recorded (`stall_dangles`).
-/
import Gem5.LsqWriteBack

open Runs

namespace Gem5.Lsq

/-! ## Statements -/

/-- The store `s` is in the store queue and has not been written back. -/
def LSQUnit.Pending (u : LSQUnit) (s : InstSeqNum) : Prop :=
  ∃ j, u.StoreAt j s ∧ u.storeWBIt ≤ j

/-- Commit's promise: a load that waits has not executed, and is not committed. -/
def Pipeline.Promises (p : Pipeline) : PipelineAction → Prop
  | .commitLoads y => ∀ q ∈ p.held, y < q
  | _ => True

/-- **The condition of a step.**  A commit leaves the load of a recorded stall in the load queue, and
write-back does not skip the store of a recorded stall as a prefetch. -/
def Pipeline.Spares (p : Pipeline) : PipelineAction → Prop
  | .commitLoads y => p.unit.stalled = true →
      ∀ l, p.unit.LoadAt p.unit.stallingLoadIdx l → y < l
  | .writebackRound _ => p.unit.stalled = true →
      p.unit.StoreAt p.unit.storeWBIt p.unit.stallingStoreIsn →
        (p.unit.insts p.unit.stallingStoreIsn).isDataPrefetch = false
  | _ => True

theorem spares_commitLoads {p : Pipeline} {y : InstSeqNum} : p.Spares (.commitLoads y) ↔
    (p.unit.stalled = true → p.unit.loadQueue.IsValidIdx p.unit.stallingLoadIdx →
      (p.unit.loadQueue.get p.unit.stallingLoadIdx).inst.all (y < ·) = true) := by
  unfold Pipeline.Spares LSQUnit.LoadAt
  simp only [Option.all_eq_true, decide_eq_true_eq]
  exact ⟨fun h hs hv l hl => h hs l ⟨hv, hl⟩, fun h hs l hl => h hs hl.1 l hl.2⟩

instance (u : LSQUnit) (j : ℕ) (s : InstSeqNum) : Decidable (u.StoreAt j s) :=
  inferInstanceAs (Decidable (_ ∧ _))

instance (p : Pipeline) (a : PipelineAction) : Decidable (p.Promises a) :=
  match a with
  | .commitLoads y => inferInstanceAs (Decidable (∀ q ∈ p.held, y < q))
  | .insertLoad _ _ | .insertStore _ _ | .executeLoad _ _ | .executeStore _ _ | .update _ _
  | .commitStores _ | .writebackBlockedStore _ | .writebackRound _ | .completeStore _ | .squash _
  | .replay => .isTrue trivial

instance (p : Pipeline) (a : PipelineAction) : Decidable (p.Spares a) :=
  match a with
  | .commitLoads _ => decidable_of_iff' _ spares_commitLoads
  | .writebackRound _ => inferInstanceAs (Decidable (_ → _ → _))
  | .insertLoad _ _ | .insertStore _ _ | .executeLoad _ _ | .executeStore _ _ | .update _ _
  | .commitStores _ | .writebackBlockedStore _ | .completeStore _ | .squash _ | .replay =>
      .isTrue trivial

/-- **What is asked of the stall tracking** in one state. -/
structure StallTracked (p : Pipeline) : Prop where
  /-- a load that waits implies a stall on a store that is still to be written back, recorded with a
  load in the load queue -/
  recorded : p.held ≠ [] → p.unit.stalled = true ∧ p.unit.Pending p.unit.stallingStoreIsn ∧
    ∃ l, p.unit.LoadAt p.unit.stallingLoadIdx l
  /-- the release at the write-back of the store finds the load of the record -/
  found : p.unit.stalled = true →
    ∃ p', p.unstall p.unit.stallingStoreIsn = .ok p' ∧ p'.held = []
  /-- no load waits any more after the step that writes the store back -/
  released : ∀ a p', p.Admits a → p.Spares a → p.step a = .ok p' → p.held ≠ [] →
    ¬ p'.unit.Pending p.unit.stallingStoreIsn → p'.held = []
  /-- the panic of `squash` on a stalled state is not reached -/
  squash : ∀ n, p.squash n ≠ .error .stalledStoreSquashed

/-! ## The invariant -/

/-- The record of a stall: the store is to be written back, and its load is the oldest load that
waits, or older than those. -/
structure StallOk (p : Pipeline) : Prop where
  rep : Represents p
  waits : p.held ≠ [] → p.unit.stalled = true
  record : p.unit.stalled = true → p.unit.Pending p.unit.stallingStoreIsn ∧
    ∃ l, p.unit.LoadAt p.unit.stallingLoadIdx l ∧ p.unit.stallingStoreIsn < l ∧
      ∀ q ∈ p.held, l ≤ q

/-- No load waits after a step that ends with the store of the stall written back. -/
def Released (p p' : Pipeline) : Prop :=
  p.held ≠ [] → ¬ p'.unit.Pending p.unit.stallingStoreIsn → p'.held = []

theorem stallOk_new (lqEntries sqEntries shift : ℕ) (checkLoads needsTSO : Bool) :
    StallOk (.new lqEntries sqEntries shift checkLoads needsTSO) :=
  ⟨represents_new lqEntries sqEntries shift checkLoads needsTSO, fun h => absurd rfl h, nofun⟩

section

variable {p p' : Pipeline}

/-- The record stays. -/
theorem StallOk.kept (h : StallOk p) (hrep : Represents p')
    (hstalled : p'.unit.stalled = p.unit.stalled)
    (hstore : p'.unit.stallingStoreIsn = p.unit.stallingStoreIsn)
    (hload : p'.unit.stallingLoadIdx = p.unit.stallingLoadIdx)
    (hpending : p.unit.stalled = true → p.unit.Pending p.unit.stallingStoreIsn →
      p'.unit.Pending p.unit.stallingStoreIsn)
    (hloadAt : p.unit.stalled = true → ∀ l, p.unit.LoadAt p.unit.stallingLoadIdx l →
      p'.unit.LoadAt p.unit.stallingLoadIdx l)
    (hheld : ∀ q ∈ p'.held, q ∈ p.held) : StallOk p' ∧ Released p p' := by
  have hne : p'.held ≠ [] → p.held ≠ [] := by
    intro hne hnil
    obtain ⟨q, hq⟩ := List.exists_mem_of_ne_nil _ hne
    have := hheld q hq
    rw [hnil] at this
    exact absurd this List.not_mem_nil
  refine ⟨⟨hrep, fun hp => ?_, fun hs => ?_⟩, fun hp hgone => ?_⟩
  · rw [hstalled]
    exact h.waits (hne hp)
  · rw [hstalled] at hs
    obtain ⟨hpend, l, hl, hlt, hall⟩ := h.record hs
    rw [hstore, hload]
    exact ⟨hpending hs hpend, l, hloadAt hs l hl, hlt, fun q hq => hall q (hheld q hq)⟩
  · have hs := h.waits hp
    exact absurd (hpending hs (h.record hs).1) hgone

/-- The stall ends and no load waits. -/
theorem StallOk.ended (hrep : Represents p') (hstalled : p'.unit.stalled = false)
    (hheld : p'.held = []) : StallOk p' ∧ Released p p' :=
  ⟨⟨hrep, fun hne => absurd hheld hne, fun hs => by rw [hstalled] at hs; cases hs⟩,
    fun _ _ => hheld⟩

theorem LSQUnit.Pending.carries {u u' : LSQUnit} {s : InstSeqNum} (h : u.Pending s)
    (hc : Carries u.storeWBIt u u') : u'.Pending s := by
  obtain ⟨j, hj, hle⟩ := h
  exact ⟨j, hc.storeAt j s hle hj, by rw [hc.storeWBIt]; exact hle⟩

/-- An operation of the unit that removes neither the store nor the load. -/
theorem StallOk.carries (h : StallOk p) (hrep : Represents p')
    (hc : Carries p.unit.storeWBIt p.unit p'.unit)
    (hloadAt : p.unit.stalled = true → ∀ l, p.unit.LoadAt p.unit.stallingLoadIdx l →
      p'.unit.LoadAt p.unit.stallingLoadIdx l)
    (hheld : ∀ q ∈ p'.held, q ∈ p.held) : StallOk p' ∧ Released p p' :=
  h.kept hrep hc.stalled hc.stallingStoreIsn hc.stallingLoadIdx (fun _ hp => hp.carries hc)
    hloadAt hheld

/-! ## Write-back -/

/-- The write-back of one store: of the one of the stall, or of another one. -/
theorem StallOk.writtenBack {w : ℕ} {s : InstSeqNum} (h : StallOk p) (hrep : Represents p')
    (hback : WrittenBack w s p p') (hit : p'.unit.storeWBIt = w)
    (hothers : ∀ j t, p.unit.StoreAt j t → p.unit.storeWBIt ≤ j → t ≠ s → w ≤ j) :
    StallOk p' ∧ Released p p' := by
  rcases hback.record with ⟨-, -, hstalled, hheld⟩ | ⟨hother, hstalled, hstore, hload, hheld⟩
  · exact StallOk.ended hrep hstalled hheld
  · refine h.kept hrep hstalled hstore hload (fun hs hp => ?_) (fun _ l hl => hback.loadAt _ l hl)
      fun q hq => by rw [hheld] at hq; exact hq
    obtain ⟨j, hj, hle⟩ := hp
    have hw := hothers j _ hj hle fun he => hother ⟨hs, he.symm⟩
    exact ⟨j, hback.storeAt j _ hw hj, by rw [hit]; exact hw⟩

theorem StallOk.advances (h : StallOk p) (hrep : Represents p') (hadv : Advances p p') :
    StallOk p' ∧ Released p p' := by
  rcases hadv with ⟨s, hs, hback, hit⟩ | ⟨hc, hlq, hheld⟩
  · refine h.writtenBack hrep hback hit fun j t hj hle hne => ?_
    rcases hle.lt_or_eq with hlt | rfl
    · exact hlt
    · exact absurd (Option.some.inj (hj.2.symm.trans hs.2)) hne
  · exact h.carries hrep hc (fun _ l hl => loadAt_congr hlq hl)
      fun q hq => by rw [hheld] at hq; exact hq

/-- A prefetch is skipped that is not the store of the stall. -/
theorem StallOk.skips {q : InstSeqNum} (h : StallOk p) (hrep : Represents p.advance)
    (hq : p.unit.StoreAt p.unit.storeWBIt q)
    (hother : p.unit.stalled = true → q ≠ p.unit.stallingStoreIsn) :
    StallOk p.advance ∧ Released p p.advance := by
  refine h.kept hrep rfl rfl rfl (fun hs hp => ?_) (fun _ l hl => hl) fun _ hq => hq
  obtain ⟨j, hj, hle⟩ := hp
  rcases hle.lt_or_eq with hlt | rfl
  · exact ⟨j, hj, hlt⟩
  · exact absurd (Option.some.inj (hq.2.symm.trans hj.2)) (hother hs)

/-! ## Executions -/

/-- **The execution of a load** keeps the oldest load that waits on record. -/
theorem StallOk.executeLoad {i : ℕ} {q : InstSeqNum} {acc : Access} (h : StallOk p)
    (hi : p.unit.LoadAt i q) (hok : p.executeLoad q acc = .ok p') :
    StallOk p' ∧ Released p p' := by
  have hrep := h.rep.executeLoad hi hok
  unfold Pipeline.executeLoad at hok
  obtain ⟨r, hr, hok⟩ := bind_eq_ok.mp hok
  cases hok
  have hothers : ∀ t ∈ p.held.filter (· ≠ q), t ∈ p.held := fun t ht => (List.mem_filter.mp ht).1
  rcases executeLoad_cases h.rep.rep hi hr with
    ⟨hno, hframed⟩ | ⟨hyes, v, k, hframed, hlow, hhigh, hold, hholds⟩
  · refine h.carries hrep (hframed.carries _) (fun _ l hl => (hframed.loadAt _ l).mpr hl) ?_
    dsimp only
    rw [hno]
    exact hothers
  -- the store that covers the load in part
  have hvalid : p.unit.storeQueue.IsValidIdx k :=
    ⟨h.rep.rep.head_le.trans hlow, hhigh.trans_le (h.rep.rep.window i q hi).1⟩
  obtain ⟨s, hs⟩ := h.rep.rep.storeInst k hvalid
  have hsq := hold s hs.2
  rw [if_pos hyes] at hrep ⊢
  rcases hholds.record with ⟨st, hst, hrec, hfirst⟩ | ⟨hrec, hstalled, old, hold', hle⟩
  · -- the load becomes the recorded one
    have hsv : (v.storeQueue.get k).inst = some s :=
      (congrArg Status.inst (hframed.storeQueue.get k)).trans hs.2
    obtain rfl : s = st := Option.some.inj (hsv.symm.trans hst)
    have hpending : ∀ t, p.unit.Pending t → r.2.Pending t := by
      rintro t ⟨j, hj, hle⟩
      refine ⟨j, (hrec.storeAt j t).mpr ((hframed.storeAt j t).mpr hj), ?_⟩
      rw [hrec.storeWBIt]
      exact hframed.storeWBIt.le.trans hle
    have hall : ∀ t ∈ p.held, q ≤ t := by
      intro t ht
      have hs := h.waits (List.ne_nil_of_mem ht)
      obtain ⟨-, l, hl, -, hl'⟩ := h.record hs
      obtain ⟨old, hold', hlt⟩ := hfirst (hframed.stalled.trans hs)
      rw [hframed.stallingLoadIdx, hframed.loadQueue.get, hl.2] at hold'
      obtain rfl := Option.some.inj hold'
      exact hlt.le.trans (hl' t ht)
    refine ⟨⟨hrep, fun _ => hrec.stalled, fun _ => ?_⟩, fun hp hgone => ?_⟩
    · dsimp only
      rw [hrec.stallingStoreIsn, hrec.stallingLoadIdx]
      refine ⟨hpending s ⟨k, hs, hlow⟩, q, ?_, hsq, fun t ht => ?_⟩
      · exact (hrec.loadAt i q).mpr ((hframed.loadAt i q).mpr hi)
      · rcases List.mem_cons.mp ht with rfl | ht
        · exact le_rfl
        · exact hall t (hothers t ht)
    · exact absurd (hpending _ (h.record (h.waits hp)).1) hgone
  · -- an older load stays on record
    have hall := hframed.trans hrec
    have hs : p.unit.stalled = true := hframed.stalled.symm.trans hstalled
    obtain ⟨hpend, l, hl, hlt, hl'⟩ := h.record hs
    rw [hframed.stallingLoadIdx, hframed.loadQueue.get, hl.2] at hold'
    obtain rfl := Option.some.inj hold'
    have hpend' := hpend.carries (hall.carries p.unit.storeWBIt)
    refine ⟨⟨hrep, fun _ => hall.stalled.trans hs, fun _ => ?_⟩, fun _ hgone => ?_⟩
    · dsimp only
      rw [hall.stallingStoreIsn, hall.stallingLoadIdx]
      refine ⟨hpend', l, (hall.loadAt _ l).mpr hl, hlt, fun t ht => ?_⟩
      rcases List.mem_cons.mp ht with rfl | ht
      · exact hle
      · exact hl' t (hothers t ht)
    · exact absurd hpend' hgone

/-! ## Squash -/

/-- **A squash** removes the load of the record together with every load that waits, or keeps the
record with its store. -/
theorem StallOk.squash {n : InstSeqNum} (h : StallOk p) (hok : p.squash n = .ok p') :
    StallOk p' ∧ Released p p' := by
  have hrep := h.rep.step (a := .squash n) trivial hok
  unfold Pipeline.squash at hok
  obtain ⟨u, hu, hok⟩ := bind_eq_ok.mp hok
  cases hok
  have hmark := framed_markSquashed p.unit n
  obtain ⟨-, v, v', hloads, hyoung, hframed, hstores⟩ := (h.rep.rep.framed hmark).squash hu
  have hheld : ∀ q ∈ p.held.filter (· ≤ n), q ∈ p.held ∧ q ≤ n := fun q hq => by
    rw [List.mem_filter, decide_eq_true_eq] at hq
    exact hq
  have hstalled : u.stalled = v.stalled := hstores.stalled.trans hframed.stalled
  have hfinal : ∀ i q, v.LoadAt i q → u.LoadAt i q := fun i q hi =>
    loadAt_congr hstores.loadQueue ((hframed.loadAt i q).mpr hi)
  rcases hloads.record with ⟨h1, h2, h3, h4⟩ | ⟨hended, hwas, l', hl', hlt⟩
  · refine h.kept hrep (hstalled.trans h1)
      ((hstores.stallingStoreIsn.trans hframed.stallingStoreIsn).trans h2)
      ((hstores.stallingLoadIdx.trans hframed.stallingLoadIdx).trans h3) (fun hs hp => ?_)
      (fun hs l hl => hfinal _ l (h4 hs l hl)) fun q hq => (hheld q hq).1
    obtain ⟨-, l, hl, hsl, -⟩ := h.record hs
    -- the store is older than a load that stays
    have hle : p.unit.stallingStoreIsn ≤ n := hsl.le.trans (hyoung _ l (h4 hs l hl))
    obtain ⟨j, hj, hit⟩ := hp
    refine ⟨j, hstores.storeAt j _ hle ((hframed.storeAt j _).mpr ?_), ?_⟩
    · exact storeAt_congr hloads.storeQueue hj
    · show u.storeWBIt ≤ j
      rw [hstores.storeWBIt, hframed.storeWBIt, hloads.storeWBIt]
      exact hit
  · refine StallOk.ended hrep (hstalled.trans hended) ?_
    obtain ⟨-, l, hl, -, hall⟩ := h.record hwas
    obtain rfl : l = l' := Option.some.inj (hl.2.symm.trans hl'.2)
    refine List.filter_eq_nil_iff.mpr fun q hq hle => ?_
    exact absurd ((hlt.trans_le (hall q hq)).trans_le (of_decide_eq_true hle)) (lt_irrefl n)

/-! ## Runs -/

/-- What one step preserves. -/
theorem StallOk.step {a : PipelineAction} (h : StallOk p) (hadm : p.Admits a) (hspare : p.Spares a)
    (hok : p.step a = .ok p') : StallOk p' ∧ Released p p' := by
  have hrep := h.rep.step hadm hok
  cases a with
  | insertLoad q i =>
    obtain ⟨u, hu, hok⟩ := bind_eq_ok.mp hok
    cases hok
    obtain ⟨-, hc, -, hl⟩ := h.rep.rep.insertLoad hadm.1 hadm.2 hu
    exact h.carries hrep hc (fun _ l => hl _ l) fun _ hq => hq
  | insertStore q i =>
    obtain ⟨u, hu, hok⟩ := bind_eq_ok.mp hok
    cases hok
    obtain ⟨-, hc, -, hl⟩ := h.rep.rep.insertStore hadm.1 hadm.2 hu
    exact h.carries hrep hc (fun _ l => loadAt_congr hl) fun _ hq => hq
  | executeLoad q acc =>
    obtain ⟨i, hi⟩ := hadm
    exact h.executeLoad hi hok
  | executeStore s acc =>
    obtain ⟨k, hk, hcan⟩ := hadm
    obtain ⟨r, hr, hok⟩ := bind_eq_ok.mp hok
    cases hok
    obtain ⟨-, hc, -, hl⟩ := h.rep.rep.executeStore hk hcan hr
    exact h.carries hrep hc (fun _ l => hl _ l) fun _ hq => hq
  | update q i =>
    cases hok
    have hframed := framed_update p.unit q i
    exact h.carries hrep (hframed.carries _) (fun _ l => (hframed.loadAt _ l).mpr) fun _ hq => hq
  | commitLoads y =>
    obtain ⟨u, hu, hok⟩ := bind_eq_ok.mp hok
    cases hok
    obtain ⟨-, hleave⟩ := h.rep.rep.commitLoads hu
    exact h.carries hrep (hleave.carries _)
      (fun hs l hl => hleave.loadAt _ l (hspare hs l hl) hl) fun _ hq => hq
  | commitStores y =>
    obtain ⟨u, hu, hok⟩ := bind_eq_ok.mp hok
    cases hok
    obtain ⟨-, hc, -, hl⟩ := h.rep.rep.commitStores hu
    exact h.carries hrep hc (fun _ l => loadAt_congr hl) fun _ hq => hq
  | writebackBlockedStore isSent =>
    exact h.advances hrep (h.rep.writebackBlockedStore hok).2
  | writebackRound r =>
    rcases (h.rep.writebackRound hok).2 with hadv | ⟨rfl, q, hq, hprefetch⟩
    · exact h.advances hrep hadv
    · refine h.skips hrep hq fun hs he => ?_
      have := hspare hs (he ▸ hq)
      rw [← he, hprefetch] at this
      cases this
  | completeStore k =>
    obtain ⟨hlow, hlt, hsent, hnew⟩ := hadm
    obtain ⟨s, hs⟩ := h.rep.rep.storeInst k ⟨hlow, hlt.trans_le h.rep.rep.le_end⟩
    obtain ⟨-, hback, hit⟩ := h.rep.completeStore hs hlt hsent hnew hok
    exact h.writtenBack hrep hback hit fun _ _ _ hle _ => hle
  | squash n => exact h.squash hok
  | replay =>
    cases hok
    exact h.carries hrep (.refl _ _) (fun _ _ hl => hl) fun _ hq => absurd hq List.not_mem_nil

/-! ## The panic of `squash` -/

theorem squashLoad_ne_stalled (u : LSQUnit) (q : InstSeqNum) :
    u.squashLoad q ≠ .error .stalledStoreSquashed := by
  intro he
  unfold LSQUnit.squashLoad at he
  rcases bind_eq_error.mp he with he | ⟨_, _, he⟩
  · unfold orFail at he
    split at he <;> cases he
  · cases he

theorem squashLoads_ne_stalled (n : InstSeqNum) (k : ℕ) (u : LSQUnit) :
    u.squashLoads n k ≠ .error .stalledStoreSquashed := by
  intro he
  induction k generalizing u with
  | zero =>
    unfold LSQUnit.squashLoads at he
    split at he
    · cases he
    split at he
    · cases he
    split at he
    · exact squashLoad_ne_stalled u _ he
    · cases he
  | succ k ih =>
    unfold LSQUnit.squashLoads at he
    split at he
    · cases he
    split at he
    · cases he
    split at he
    · rcases bind_eq_error.mp he with he | ⟨v, -, he⟩
      · exact squashLoad_ne_stalled u _ he
      · exact ih v he
    · cases he

theorem inFlightUid_ne_stalled (u : LSQUnit) (k i uid : ℕ) :
    u.inFlightUid k i uid ≠ .error .stalledStoreSquashed := by
  intro he
  induction k generalizing i uid with
  | zero => cases he
  | succ k ih =>
    unfold LSQUnit.inFlightUid at he
    rcases bind_eq_error.mp he with he | ⟨q, -, he⟩
    · unfold orFail at he
      split at he <;> cases he
    · exact ih _ _ he

/-- A squashed store is younger than the store of the stall. -/
theorem squashStore_ne_stalled {n q : InstSeqNum} {u : LSQUnit} (hlt : n < q)
    (hstall : u.stalled = true → u.stallingStoreIsn ≤ n) :
    u.squashStore q ≠ .error .stalledStoreSquashed := by
  intro he
  unfold LSQUnit.squashStore at he
  rcases bind_eq_error.mp he with he | ⟨_, _, he⟩
  · rw [require_eq_error, Bool.not_eq_false', Bool.and_eq_true, decide_eq_true_eq] at he
    obtain ⟨⟨hs, rfl⟩, -⟩ := he
    exact absurd hlt (not_lt.mpr (hstall hs))
  · rcases bind_eq_error.mp he with he | ⟨_, _, he⟩
    · unfold orFail at he
      split at he <;> cases he
    · cases he

theorem squashStore_record {q : InstSeqNum} {u u' : LSQUnit} (hok : u.squashStore q = .ok u') :
    u'.stalled = u.stalled ∧ u'.stallingStoreIsn = u.stallingStoreIsn := by
  unfold LSQUnit.squashStore at hok
  obtain ⟨_, _, hok⟩ := bind_eq_ok.mp hok
  obtain ⟨_, _, hok⟩ := bind_eq_ok.mp hok
  cases hok
  exact ⟨rfl, rfl⟩

theorem squashStores_ne_stalled {n : InstSeqNum} {k : ℕ} {u : LSQUnit}
    (hstall : u.stalled = true → u.stallingStoreIsn ≤ n) :
    u.squashStores n k ≠ .error .stalledStoreSquashed := by
  intro he
  induction k generalizing u with
  | zero =>
    unfold LSQUnit.squashStores at he
    split at he
    · cases he
    split at he
    · cases he
    split at he
    · rename_i hlt
      split at he
      · cases he
      · exact squashStore_ne_stalled hlt hstall he
    · cases he
  | succ k ih =>
    unfold LSQUnit.squashStores at he
    split at he
    · cases he
    split at he
    · cases he
    split at he
    · rename_i hlt
      split at he
      · cases he
      · rcases bind_eq_error.mp he with he | ⟨v, hv, he⟩
        · exact squashStore_ne_stalled hlt hstall he
        · obtain ⟨h1, h2⟩ := squashStore_record hv
          exact ih (fun hs => by rw [h2]; exact hstall (h1.symm.trans hs)) he
    · cases he

/-- **The panic of `squash` is not reached**: after the loads were squashed, the load of a recorded
stall stays, and is younger than its store. -/
theorem StallOk.squash_ne_stalled (h : StallOk p) (n : InstSeqNum) :
    p.squash n ≠ .error .stalledStoreSquashed := by
  intro he
  unfold Pipeline.squash at he
  rcases bind_eq_error.mp he with he | ⟨_, _, he⟩
  · unfold LSQUnit.squash at he
    rcases bind_eq_error.mp he with he | ⟨v, hv, he⟩
    · exact squashLoads_ne_stalled _ _ _ he
    rcases bind_eq_error.mp he with he | ⟨uid, _, he⟩
    · exact inFlightUid_ne_stalled _ _ _ _ he
    refine squashStores_ne_stalled (fun hs => ?_) he
    have hmark := framed_markSquashed p.unit n
    obtain ⟨-, hloads, hyoung⟩ := (h.rep.rep.framed hmark).squashLoads le_rfl hv
    have hs' : v.stalled = true := hs
    show v.stallingStoreIsn ≤ n
    rcases hloads.record with ⟨h1, h2, -, h4⟩ | ⟨hended, -, -⟩
    · have hwas : p.unit.stalled = true := h1.symm.trans hs'
      obtain ⟨-, l, hl, hlt, -⟩ := h.record hwas
      rw [h2]
      exact hlt.le.trans (hyoung _ l (h4 hwas l hl))
    · rw [hs'] at hended
      cases hended
  · cases he

/-! ## Main result -/

theorem StallOk.tracked (h : StallOk p) : StallTracked p where
  recorded hne := by
    have hs := h.waits hne
    obtain ⟨hp, l, hl, -⟩ := h.record hs
    exact ⟨hs, hp, l, hl⟩
  found hs := by
    obtain ⟨-, l, hl, -⟩ := h.record hs
    refine ⟨{ p with held := [] }, ?_, rfl⟩
    unfold Pipeline.unstall
    rw [if_pos (by rw [hs, decide_eq_true rfl]; rfl)]
    exact bind_eq_ok.mpr ⟨l, orFail_eq_ok.mpr hl.2, rfl⟩
  released a p' hadm hspare hok := (h.step hadm hspare hok).2
  squash n := h.squash_ne_stalled n

/-- **Stalls on partially covering stores are tracked** in every state of a run whose commits leave
the loads of recorded stalls in the load queue, and whose write-back skips no store of a recorded
stall. -/
theorem stalls_tracked {lqEntries sqEntries depCheckShift : ℕ} {checkLoads needsTSO : Bool}
    {as : List PipelineAction}
    (hadm : Admitted (fun t a => t.Admits a ∧ t.Spares a) Pipeline.step
      (.new lqEntries sqEntries depCheckShift checkLoads needsTSO) as)
    (hrun : run Pipeline.step (.new lqEntries sqEntries depCheckShift checkLoads needsTSO) as =
      .ok p) : StallTracked p := by
  have h := run_invariant (P := StallOk) (fun _ _ _ h hadm hok => (h.step hadm.1 hadm.2 hok).1)
    (stallOk_new lqEntries sqEntries depCheckShift checkLoads needsTSO) hadm hrun
  exact h.tracked

end

/-! ## A load that waits, and a record that dangles -/

/-- A load is held by a store that covers its lower half. -/
def heldLoad : List PipelineAction :=
  [.insertStore 1 {}, .insertLoad 2 { isLoad := true }, .executeStore 1 (accessAt 0x1000 4),
    .executeLoad 2 (accessAt 0x1000 8)]

theorem stalls_tracked_heldLoad :
    ∃ p, run Pipeline.step (.new 4 4 0 false false) heldLoad = .ok p ∧ p.held = [2] ∧
      StallTracked p := by
  obtain ⟨p, hrun, hheld⟩ : ∃ p, run Pipeline.step (.new 4 4 0 false false) heldLoad = .ok p ∧
      p.held = [2] := by
    decide +kernel
  exact ⟨p, hrun, hheld, stalls_tracked (by decide +kernel) hrun⟩

/-- A strictly ordered access. -/
def orderedAt (a : Addr) (n : BitVec 32) : Access :=
  let main : Request := { vaddr := a, size := n, isStrictlyOrdered := true }
  { push := some { req := { mainRequest := some main, request := main, size := n }, size := n } }

/-- The load 4 is held on the store 2 and the load 5 on the store 3, which executed in between.  The
strictly ordered load 1 reaches the head and has both replayed: the load 4 now takes its data from
the store 3, the load 5 is held again, and the loads up to 4 commit before the store 2 is sent. -/
def danglingStall : List PipelineAction :=
  [.insertLoad 1 { isLoad := true }, .insertStore 2 {}, .insertStore 3 {},
    .insertLoad 4 { isLoad := true }, .insertLoad 5 { isLoad := true },
    .executeLoad 1 (orderedAt 0x9000 8), .executeStore 2 (accessAt 0x1000 4),
    .executeLoad 4 (accessAt 0x1000 8), .executeStore 3 (accessAt 0x1000 8),
    .executeLoad 5 (accessAt 0x1000 16), .replay, .update 1 { atCommit := true },
    .executeLoad 1 (orderedAt 0x9000 8), .executeLoad 4 (accessAt 0x1000 8),
    .executeLoad 5 (accessAt 0x1000 16), .commitStores 4, .commitLoads 4]

instance decidableFails {α : Type*} {x : Except Fail α} {e : Fail} : Decidable (x = .error e) :=
  match x with
  | .error e' => decidable_of_iff (e' = e) ⟨congrArg _, Except.error.inj⟩
  | .ok _ => .isFalse nofun

/-- The load 5 waits, the load of the record has left the queue, and the write-back of the store 2
dereferences an empty entry. -/
theorem stall_dangles :
    ∃ p, Admitted (fun t a => t.Admits a ∧ t.Promises a) Pipeline.step (.new 8 8 0 false false)
        danglingStall ∧
      run Pipeline.step (.new 8 8 0 false false) danglingStall = .ok p ∧ p.held = [5] ∧
      ¬ StallTracked p ∧ p.step (.writebackRound {}) = .error .nullInst := by
  obtain ⟨p, hrun, hheld, hgone, hnull⟩ :
      ∃ p, run Pipeline.step (.new 8 8 0 false false) danglingStall = .ok p ∧ p.held = [5] ∧
        ¬ p.unit.loadQueue.IsValidIdx p.unit.stallingLoadIdx ∧
        p.step (.writebackRound {}) = .error .nullInst := by
    decide +kernel
  refine ⟨p, by decide +kernel, hrun, hheld, fun h => ?_, hnull⟩
  obtain ⟨-, -, l, hl⟩ := h.recorded (by rw [hheld]; exact List.cons_ne_nil _ _)
  exact hgone hl.1

end Gem5.Lsq
