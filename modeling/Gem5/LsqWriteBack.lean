/-
# Write-back keeps the representation of the load/store unit

The rounds of `writebackStores`, the blocked store and the responses of the memory system keep the
counters, the write-back position and, under total store ordering, the bound on the stores in
flight.  The main result, `represents_reached`, puts the operations together: it holds after every
run.
-/
import Gem5.LsqOperations

open Runs

namespace Gem5.Lsq

/-! ## The invariant -/

/-- **The representation invariant of the pipeline.**  The stores that were handed to the memory
system and are not completed are, under total store ordering, the one in flight or the one that is
blocked. -/
structure Represents (p : Pipeline) : Prop where
  rep : RepAt p.unit p.unit.storeWBIt
  blocked : p.isStoreBlocked = true → p.unit.storeQueue.IsValidIdx p.unit.storeWBIt ∧
    (p.unit.storeQueue.get p.unit.storeWBIt).committed = true
  tso : p.needsTSO = true →
    p.unit.outstanding = p.storeInFlight.toNat + p.isStoreBlocked.toNat ∧
      (p.storeInFlight && p.isStoreBlocked) = false

theorem represents_new (lqEntries sqEntries shift : ℕ) (checkLoads needsTSO : Bool) :
    Represents (.new lqEntries sqEntries shift checkLoads needsTSO) :=
  ⟨repAt_new lqEntries sqEntries shift checkLoads, nofun, fun _ => ⟨rfl, rfl⟩⟩

section

variable {p p' : Pipeline} {w j : ℕ}

variable {u : LSQUnit} {s q : InstSeqNum}

/-- A change of the unit that keeps the stores that were handed over. -/
theorem Represents.of_unit (h : Represents p) (hrep : RepAt u p.unit.storeWBIt)
    (hit : u.storeWBIt = p.unit.storeWBIt)
    (hcommitted : ∀ j, p.unit.storeWBIt ≤ j → p.unit.storeQueue.IsValidIdx j →
      (p.unit.storeQueue.get j).committed = true →
      u.storeQueue.IsValidIdx j ∧ (u.storeQueue.get j).committed = true)
    (hout : u.outstanding = p.unit.outstanding) (held : List InstSeqNum) :
    Represents { p with unit := u, held := held } := by
  constructor
  · rw [hit]
    exact hrep
  · intro hb
    rw [hit]
    exact hcommitted _ le_rfl (h.blocked hb).1 (h.blocked hb).2
  · intro ht
    rw [hout]
    exact h.tso ht

theorem Represents.carries (h : Represents p) (hrep : RepAt u p.unit.storeWBIt)
    (hcarries : Carries p.unit.storeWBIt p.unit u) (hout : u.outstanding = p.unit.outstanding)
    (held : List InstSeqNum) : Represents { p with unit := u, held := held } :=
  h.of_unit hrep hcarries.storeWBIt hcarries.committed hout held

/-! ## One store is written back -/

/-- **What the write-back of the store `s` does** to the stores from position `w` on, to the loads
and to the record of a stall. -/
structure WrittenBack (w : ℕ) (s : InstSeqNum) (p p' : Pipeline) : Prop where
  storeAt : ∀ j t, w ≤ j → p.unit.StoreAt j t → p'.unit.StoreAt j t
  loadAt : ∀ i q, p.unit.LoadAt i q → p'.unit.LoadAt i q
  record : (p.unit.stalled = true ∧ s = p.unit.stallingStoreIsn ∧ p'.unit.stalled = false ∧
      p'.held = []) ∨
    (¬ (p.unit.stalled = true ∧ s = p.unit.stallingStoreIsn) ∧
      p'.unit.stalled = p.unit.stalled ∧ p'.unit.stallingStoreIsn = p.unit.stallingStoreIsn ∧
      p'.unit.stallingLoadIdx = p.unit.stallingLoadIdx ∧ p'.held = p.held)

/-- The record in the unit and the loads that wait are released together. -/
theorem unstall_record (hstalled : u.stalled = p.unit.stalled)
    (hstore : u.stallingStoreIsn = p.unit.stallingStoreIsn)
    (hload : u.stallingLoadIdx = p.unit.stallingLoadIdx) (hok : p.unstall s = .ok p') :
    p'.unit = p.unit ∧ p'.needsTSO = p.needsTSO ∧ p'.storeInFlight = p.storeInFlight ∧
      p'.isStoreBlocked = p.isStoreBlocked ∧
      ((p.unit.stalled = true ∧ s = p.unit.stallingStoreIsn ∧ (u.unstall s).stalled = false ∧
          p'.held = []) ∨
        (¬ (p.unit.stalled = true ∧ s = p.unit.stallingStoreIsn) ∧
          (u.unstall s).stalled = p.unit.stalled ∧
          (u.unstall s).stallingStoreIsn = p.unit.stallingStoreIsn ∧
          (u.unstall s).stallingLoadIdx = p.unit.stallingLoadIdx ∧ p'.held = p.held)) := by
  unfold Pipeline.unstall at hok
  unfold LSQUnit.unstall
  rw [hstalled, hstore]
  split at hok
  · rename_i hs
    unfold Pipeline.replayMemInst at hok
    obtain ⟨l, _, hok⟩ := bind_eq_ok.mp hok
    cases hok
    rw [if_pos hs]
    rw [Bool.and_eq_true, decide_eq_true_eq] at hs
    exact ⟨rfl, rfl, rfl, rfl, .inl ⟨hs.1, hs.2, rfl, rfl⟩⟩
  · rename_i hs
    cases hok
    rw [if_neg hs]
    rw [Bool.and_eq_true, decide_eq_true_eq] at hs
    exact ⟨rfl, rfl, rfl, rfl, .inr ⟨hs, hstalled, hstore, hload, rfl⟩⟩

theorem loadQueue_unstall (u : LSQUnit) (s : InstSeqNum) :
    (u.unstall s).loadQueue = u.loadQueue := by
  unfold LSQUnit.unstall
  split <;> rfl

theorem storeQueue_unstall (u : LSQUnit) (s : InstSeqNum) :
    (u.unstall s).storeQueue = u.storeQueue := by
  unfold LSQUnit.unstall
  split <;> rfl

theorem storeWBIt_unstall (u : LSQUnit) (s : InstSeqNum) :
    (u.unstall s).storeWBIt = u.storeWBIt := by
  unfold LSQUnit.unstall
  split <;> rfl

/-- A unit with the queues of another shows the same stores and loads. -/
theorem storeAt_congr {v : LSQUnit} (h : v.storeQueue = u.storeQueue) {k : ℕ} {t : InstSeqNum}
    (hk : u.StoreAt k t) : v.StoreAt k t := by
  unfold LSQUnit.StoreAt at hk ⊢
  rw [h]
  exact hk

theorem loadAt_congr {v : LSQUnit} (h : v.loadQueue = u.loadQueue) {k : ℕ} {t : InstSeqNum}
    (hk : u.LoadAt k t) : v.LoadAt k t := by
  unfold LSQUnit.LoadAt at hk ⊢
  rw [h]
  exact hk

/-- **The completion of a store** below the write-back position `w`. -/
theorem completeStore_spec (h : RepAt p.unit w) (hj : p.unit.StoreAt j s) (hlt : j < w)
    (hnew : (p.unit.storeQueue.get j).completed = false) (hok : p.completeStore j = .ok p') :
    RepAt p'.unit w ∧ WrittenBack w s p p' ∧ p'.unit.storeWBIt = p.unit.storeWBIt ∧
      p'.unit.outstanding + (p.unit.storeQueue.get j).committed.toNat = p.unit.outstanding ∧
      p'.isStoreBlocked = p.isStoreBlocked ∧ p'.needsTSO = p.needsTSO ∧
      p'.storeInFlight = (p.storeInFlight && !p.needsTSO) ∧
      (∀ k, w ≤ k → p.unit.storeQueue.IsValidIdx k →
        (p.unit.storeQueue.get k).committed = true → p'.unit.storeQueue.IsValidIdx k ∧
          (p'.unit.storeQueue.get k).committed = true) := by
  unfold Pipeline.completeStore at hok
  obtain ⟨u, hu, hok⟩ := bind_eq_ok.mp hok
  obtain ⟨s', hs', hok⟩ := bind_eq_ok.mp hok
  obtain ⟨t, ht, hok⟩ := bind_eq_ok.mp hok
  cases hok
  rw [orFail_eq_ok, hj.2] at hs'
  obtain rfl := Option.some.inj hs'
  obtain ⟨v, hrep, hcarries, hout, hlq, -, rfl⟩ := h.completeStore hj hlt hnew hu
  obtain ⟨-, htso, hflight, hblocked, hrecord⟩ :=
    unstall_record hcarries.stalled hcarries.stallingStoreIsn hcarries.stallingLoadIdx ht
  have hframed : Framed (v.unstall s) ((v.unstall s).setInst s
      { (v.unstall s).insts s with completed := true }) :=
    framed_setInst (by exact ⟨rfl, rfl, rfl, rfl⟩)
  refine ⟨(hrep.unstall s).framed hframed,
    ⟨fun k r hk hkr => ?_, fun i q hi => ?_, hrecord⟩, ?_, ?_, hblocked, htso,
    by rw [← hflight, ← htso], fun k hk hkv hc => ?_⟩
  · exact storeAt_congr (storeQueue_unstall v s) (hcarries.storeAt k r hk hkr)
  · exact loadAt_congr ((loadQueue_unstall v s).trans hlq) hi
  · exact (storeWBIt_unstall v s).trans hcarries.storeWBIt
  · rw [← hout]
    unfold LSQUnit.outstanding LSQUnit.setInst
    dsimp only
    rw [storeQueue_unstall]
  · have := hcarries.committed k hk hkv hc
    unfold LSQUnit.setInst
    dsimp only
    rw [storeQueue_unstall]
    exact this

theorem storePostSend_frame {u' : LSQUnit} (hs : (u.storeQueue.get u.storeWBIt).inst = some s)
    (hok : u.storePostSend = .ok u') :
    ∃ v, Framed (u.unstall s) v ∧ u' = { v with storeWBIt := v.storeWBIt + 1 } := by
  unfold LSQUnit.storePostSend at hok
  obtain ⟨s', hs', hok⟩ := bind_eq_ok.mp hok
  cases hok
  rw [orFail_eq_ok, hs] at hs'
  obtain rfl := Option.some.inj hs'
  refine ⟨_, ?_, rfl⟩
  split
  · exact .refl _
  · exact framed_setInst (by exact ⟨rfl, rfl, rfl, rfl⟩)

/-- **A store that was sent**: the write-back position passes it. -/
theorem storePostSend_spec (h : RepAt p.unit p.unit.storeWBIt)
    (hw : p.unit.StoreAt p.unit.storeWBIt s)
    (hcan : (p.unit.storeQueue.get p.unit.storeWBIt).canWB = true) (hok : p.storePostSend = .ok p')
    :
    RepAt p'.unit (p.unit.storeWBIt + 1) ∧ WrittenBack (p.unit.storeWBIt + 1) s p p' ∧
      p'.unit.storeWBIt = p.unit.storeWBIt + 1 ∧ p'.unit.outstanding = p.unit.outstanding ∧
      p'.isStoreBlocked = p.isStoreBlocked ∧ p'.needsTSO = p.needsTSO ∧
      p'.storeInFlight = (p.storeInFlight || p.needsTSO) := by
  unfold Pipeline.storePostSend at hok
  obtain ⟨u, hu, hok⟩ := bind_eq_ok.mp hok
  obtain ⟨s', hs', hok⟩ := bind_eq_ok.mp hok
  obtain ⟨t, ht, hok⟩ := bind_eq_ok.mp hok
  cases hok
  rw [orFail_eq_ok, hw.2] at hs'
  obtain rfl := Option.some.inj hs'
  obtain ⟨-, htso, hflight, hblocked, hrecord⟩ := unstall_record rfl rfl rfl ht
  obtain ⟨v, hframed, rfl⟩ := storePostSend_frame hw.2 hu
  have hadvanced := ((h.advance hw.1 hcan).unstall s).framed hframed
  refine ⟨hadvanced.same (.refl _) (.refl _) rfl rfl rfl fun _ => .refl _,
    ⟨fun k r _ hkr => ?_, fun i q hi => ?_, ?_⟩, ?_, ?_, hblocked, htso, by rw [← hflight, ← htso]⟩
  · exact (hframed.storeAt k r).mpr (storeAt_congr (storeQueue_unstall p.unit s) hkr)
  · exact (hframed.loadAt i q).mpr (loadAt_congr (loadQueue_unstall p.unit s) hi)
  · dsimp only
    rw [hframed.stalled, hframed.stallingStoreIsn, hframed.stallingLoadIdx]
    exact hrecord
  · dsimp only
    rw [hframed.storeWBIt, storeWBIt_unstall]
  · refine Eq.trans (show _ = v.outstanding from rfl) (hframed.outstanding.trans ?_)
    unfold LSQUnit.outstanding
    rw [storeQueue_unstall]

/-! ## The store at the write-back position -/

/-- **A store on its way**: the one at the write-back position has been handed to the memory system,
and is the only one under total store ordering. -/
structure Sending (p : Pipeline) (s : InstSeqNum) : Prop where
  rep : RepAt p.unit p.unit.storeWBIt
  storeAt : p.unit.StoreAt p.unit.storeWBIt s
  committed : (p.unit.storeQueue.get p.unit.storeWBIt).committed = true
  tso : p.needsTSO = true → p.unit.outstanding = 1 ∧ p.storeInFlight = false

/-- The store at the write-back position was written back, or nothing that the stall depends on has
changed. -/
def Advances (p p' : Pipeline) : Prop :=
  (∃ s, p.unit.StoreAt p.unit.storeWBIt s ∧ WrittenBack (p.unit.storeWBIt + 1) s p p' ∧
    p'.unit.storeWBIt = p.unit.storeWBIt + 1) ∨
  (Carries p.unit.storeWBIt p.unit p'.unit ∧ p'.unit.loadQueue = p.unit.loadQueue ∧
    p'.held = p.held)

theorem Sending.canWB (h : Sending p s) :
    (p.unit.storeQueue.get p.unit.storeWBIt).canWB = true := h.rep.sent _ h.committed

/-- The cache takes the packets of the store, or blocks. -/
theorem Sending.send {isSent : Bool} (h : Sending p s) (hok : p.send isSent = .ok p') :
    Represents p' ∧ Advances p p' := by
  unfold Pipeline.send at hok
  split at hok
  · obtain ⟨hrep, hback, hit, hout, hblocked, htso, hflight⟩ :=
      storePostSend_spec (p := { p with isStoreBlocked := false }) h.rep h.storeAt h.canWB hok
    refine ⟨⟨by rw [hit]; exact hrep, fun hb => ?_, fun ht => ?_⟩,
      .inl ⟨s, h.storeAt, ⟨hback.storeAt, hback.loadAt, hback.record⟩, hit⟩⟩
    · rw [hblocked] at hb
      cases hb
    · have ht' : p.needsTSO = true := htso ▸ ht
      rw [hout, hblocked, hflight, (h.tso ht').2]
      dsimp only
      rw [ht']
      exact ⟨(h.tso ht').1, rfl⟩
  · cases hok
    refine ⟨⟨h.rep, fun _ => ⟨h.storeAt.1, h.committed⟩, fun ht => ?_⟩,
      .inr ⟨.refl _ _, rfl, rfl⟩⟩
    obtain ⟨hout, hflight⟩ := h.tso ht
    dsimp only
    rw [hflight]
    exact ⟨hout, rfl⟩

/-- The store at the write-back position is completed at once, and passed. -/
theorem Sending.complete {t : Pipeline} (h : Sending p s) (hblocked : p.isStoreBlocked = false)
    (hok : p.completeStore p.unit.storeWBIt = .ok t)
    (hunit : p'.unit = { t.unit with storeWBIt := p.unit.storeWBIt + 1 })
    (htso : p'.needsTSO = t.needsTSO) (hflight : p'.storeInFlight = t.storeInFlight)
    (hblock : p'.isStoreBlocked = t.isStoreBlocked) (hheld : p'.held = t.held) :
    Represents p' ∧ Advances p p' := by
  have hadvanced := h.rep.advance h.storeAt.1 h.canWB
  have hnew := h.rep.after _ h.storeAt.1 le_rfl
  obtain ⟨hrep, hback, -, hout, hb, hn, hf, -⟩ :=
    completeStore_spec hadvanced h.storeAt (Nat.lt_succ_self _) hnew hok
  rw [h.committed] at hout
  refine ⟨⟨?_, fun hb' => ?_, fun ht => ?_⟩, .inl ⟨s, h.storeAt, ⟨?_, ?_, ?_⟩, by rw [hunit]⟩⟩
  · rw [hunit]
    exact hrep.same (.refl _) (.refl _) rfl rfl rfl fun _ => .refl _
  · rw [hblock, hb, hblocked] at hb'
    cases hb'
  · have ht' : p.needsTSO = true := hn ▸ htso ▸ ht
    have hone := (h.tso ht').1
    rw [hflight, hf, (h.tso ht').2, hblock, hb, hblocked, hunit]
    refine ⟨?_, rfl⟩
    show t.unit.outstanding = 0
    have : (true : Bool).toNat = 1 := rfl
    omega
  · rw [hunit]
    exact hback.storeAt
  · rw [hunit]
    exact hback.loadAt
  · rw [hunit, hheld]
    exact hback.record

/-- The end of a round. -/
theorem Sending.transmit {r : Round} {req : LSQRequest} (h : Sending p s)
    (hblocked : p.isStoreBlocked = false) (hok : p.transmit r q req = .ok p') :
    Represents p' ∧ Advances p p' := by
  unfold Pipeline.transmit at hok
  split at hok
  · unfold Pipeline.failStoreConditional at hok
    obtain ⟨t, ht, hok⟩ := bind_eq_ok.mp hok
    have hadvanced := h.rep.advance h.storeAt.1 h.canWB
    obtain ⟨hrep, -, hit, -⟩ := completeStore_spec hadvanced h.storeAt (Nat.lt_succ_self _)
      (h.rep.after _ h.storeAt.1 le_rfl) ht
    split at hok
    · cases hok
      refine h.complete hblocked ht ?_ rfl rfl rfl rfl
      unfold Pipeline.advance
      rw [hit]
    · rename_i hempty
      cases hok
      refine h.complete hblocked ht ?_ rfl rfl rfl rfl
      -- the end of an empty queue is its head
      rw [Bool.not_eq_true', Bool.not_eq_false] at hempty
      have hsize : t.unit.storeQueue.size = 0 := of_decide_eq_true hempty
      have hlow := hrep.head_le
      have hhigh := hrep.le_end
      rw [CircularQueue.endIdx_eq hrep.sqFits,
        show t.unit.storeQueue.head + t.unit.storeQueue.size = p.unit.storeWBIt + 1 by omega]
  split at hok
  · obtain ⟨_, _, hok⟩ := bind_eq_ok.mp hok
    obtain ⟨_, _, hok⟩ := bind_eq_ok.mp hok
    obtain ⟨t, ht, hok⟩ := bind_eq_ok.mp hok
    cases hok
    obtain ⟨-, -, hit, -⟩ := completeStore_spec (h.rep.advance h.storeAt.1 h.canWB) h.storeAt
      (Nat.lt_succ_self _) (h.rep.after _ h.storeAt.1 le_rfl) ht
    refine h.complete hblocked ht ?_ rfl rfl rfl rfl
    unfold Pipeline.advance
    rw [hit]
  · exact h.send hok

/-! ## Rounds -/

/-- What holds when a round passes the condition of the loop. -/
theorem mayWriteBack_spec {r : Round} {x : SQEntry} (h : p.mayWriteBack r x = true) :
    p.unit.storeQueue.IsValidIdx p.unit.storeWBIt ∧ x.canWB = true ∧
      (p.needsTSO = true → p.storeInFlight = false) := by
  unfold Pipeline.mayWriteBack at h
  simp only [Bool.and_eq_true, decide_eq_true_eq, Bool.or_eq_true, Bool.not_eq_true'] at h
  obtain ⟨⟨⟨⟨⟨-, hvalid⟩, -⟩, hcan⟩, htso⟩, -⟩ := h
  refine ⟨hvalid, hcan, fun ht => htso.resolve_left ?_⟩
  rw [ht]
  exact Bool.true_eq_false.mp

/-- Under total store ordering nothing is on its way when a round begins. -/
theorem Represents.idle (h : Represents p) (hblocked : p.isStoreBlocked = false)
    (hflight : p.needsTSO = true → p.storeInFlight = false) (ht : p.needsTSO = true) :
    p.unit.outstanding = 0 := by
  obtain ⟨hout, -⟩ := h.tso ht
  rw [hout, hflight ht, hblocked]
  rfl

/-- The write-back position passes a store without data, which is completed. -/
theorem Represents.passEmpty (h : Represents p) (hblocked : p.isStoreBlocked = false)
    (hvalid : p.unit.storeQueue.IsValidIdx p.unit.storeWBIt)
    (hcan : (p.unit.storeQueue.get p.unit.storeWBIt).canWB = true)
    (hflight : p.needsTSO = true → p.storeInFlight = false)
    (hok : p.advance.completeStore p.unit.storeWBIt = .ok p') :
    Represents p' ∧ Advances p p' := by
  have hadvanced : RepAt p.advance.unit (p.unit.storeWBIt + 1) :=
    (h.rep.advance hvalid hcan).same (.refl _) (.refl _) rfl rfl rfl fun _ => .refl _
  obtain ⟨s, hs⟩ := h.rep.storeInst _ hvalid
  obtain ⟨hrep, hback, hit, hout, hb, hn, hf, -⟩ :=
    completeStore_spec hadvanced hs (Nat.lt_succ_self _) (h.rep.after _ hvalid le_rfl) hok
  have hit' : p'.unit.storeWBIt = p.unit.storeWBIt + 1 := hit
  refine ⟨⟨by rw [hit']; exact hrep, fun hb' => ?_, fun ht => ?_⟩,
    .inl ⟨s, hs, ⟨hback.storeAt, hback.loadAt, hback.record⟩, hit'⟩⟩
  · rw [hb, show p.advance.isStoreBlocked = false from hblocked] at hb'
    cases hb'
  · have ht' : p.needsTSO = true := hn ▸ ht
    have hidle := h.idle hblocked hflight ht'
    have hout' : p'.unit.outstanding + _ = p.unit.outstanding := hout
    rw [hb, hf, show p.advance.isStoreBlocked = false from hblocked,
      show p.advance.storeInFlight = false from hflight ht']
    exact ⟨(Nat.add_eq_zero_iff.mp (hout'.trans hidle)).1, rfl⟩

/-- The write-back position passes a prefetch. -/
theorem Represents.passPrefetch (h : Represents p) (hblocked : p.isStoreBlocked = false)
    (hvalid : p.unit.storeQueue.IsValidIdx p.unit.storeWBIt)
    (hcan : (p.unit.storeQueue.get p.unit.storeWBIt).canWB = true) :
    Represents p.advance := by
  refine ⟨(h.rep.advance hvalid hcan).same (.refl _) (.refl _) rfl rfl rfl fun _ => .refl _,
    fun hb => ?_, h.tso⟩
  rw [show p.advance.isStoreBlocked = false from hblocked] at hb
  cases hb

/-- A store is handed to the memory system. -/
theorem Represents.commitStore (h : Represents p) (req : LSQRequest)
    (hblocked : p.isStoreBlocked = false) (hs : p.unit.StoreAt p.unit.storeWBIt s)
    (hcan : (p.unit.storeQueue.get p.unit.storeWBIt).canWB = true)
    (hnew : (p.unit.storeQueue.get p.unit.storeWBIt).committed = false)
    (hflight : p.needsTSO = true → p.storeInFlight = false) :
    Sending { p with unit := p.unit.commitStore s req } s ∧
      Carries p.unit.storeWBIt p.unit (p.unit.commitStore s req) := by
  have hframed : Framed p.unit (p.unit.setInst s { p.unit.insts s with
      memData := some ((p.unit.storeQueue.get p.unit.storeWBIt).written req.size) }) :=
    framed_setInst (by exact ⟨rfl, rfl, rfl, rfl⟩)
  obtain ⟨hrep, hcarries, hout⟩ := (h.rep.framed hframed).setCommitted hs.1 hcan hnew
  refine ⟨⟨hrep, hcarries.storeAt _ s le_rfl hs, ?_, fun ht => ⟨?_, hflight ht⟩⟩,
    (hframed.carries _).trans hcarries⟩
  · show ((p.unit.storeQueue.set p.unit.storeWBIt _).get p.unit.storeWBIt).committed = true
    rw [CircularQueue.get_set_self]
  · refine hout.trans ?_
    rw [hframed.outstanding, h.idle hblocked hflight ht]

/-- What has advanced since the store was handed over has advanced since before. -/
theorem Advances.of_carries {u : LSQUnit} (h : Advances { p with unit := u } p')
    (hcarries : Carries p.unit.storeWBIt p.unit u) (hlq : u.loadQueue = p.unit.loadQueue)
    (hs : ∀ s, u.StoreAt u.storeWBIt s → p.unit.StoreAt p.unit.storeWBIt s) :
    Advances p p' := by
  have hit := hcarries.storeWBIt
  rcases h with ⟨s, hstore, hback, hnext⟩ | ⟨hc, hl, hheld⟩
  · refine .inl ⟨s, hs s hstore, ⟨fun j t hj hjt => ?_, fun i q hi => ?_, ?_⟩, ?_⟩
    · exact hback.storeAt j t (by dsimp only; rw [hit]; exact hj)
        (hcarries.storeAt j t (Nat.le_of_succ_le hj) hjt)
    · exact hback.loadAt i q (loadAt_congr hlq hi)
    · have := hback.record
      dsimp only at this
      rw [hcarries.stalled, hcarries.stallingStoreIsn, hcarries.stallingLoadIdx] at this
      exact this
    · rw [hnext]
      dsimp only
      rw [hit]
  · dsimp only at hc hl
    rw [hit] at hc
    exact .inr ⟨hcarries.trans hc, hl.trans hlq, hheld⟩

/-- **One round of `writebackStores`** keeps the invariant.  It writes the store at the write-back
position back, leaves it for later, or passes it when it is a prefetch. -/
theorem Represents.writebackRound {r : Round} (h : Represents p)
    (hok : p.writebackRound r = .ok p') :
    Represents p' ∧ (Advances p p' ∨ p' = p.advance ∧
      ∃ q, p.unit.StoreAt p.unit.storeWBIt q ∧ (p.unit.insts q).isDataPrefetch = true) := by
  have hsame : Represents p ∧ (Advances p p ∨ p = p.advance ∧
      ∃ q, p.unit.StoreAt p.unit.storeWBIt q ∧ (p.unit.insts q).isDataPrefetch = true) :=
    ⟨h, .inl (.inr ⟨.refl _ _, rfl, rfl⟩)⟩
  unfold Pipeline.writebackRound at hok
  dsimp only at hok
  split at hok
  · cases hok
    exact hsame
  rename_i hpass
  rw [Bool.or_eq_true, not_or, Bool.not_eq_true', Bool.not_eq_false, Bool.not_eq_true] at hpass
  obtain ⟨hmay, hblocked⟩ := hpass
  obtain ⟨hvalid, hcan, hflight⟩ := mayWriteBack_spec hmay
  split at hok
  · obtain ⟨h1, h2⟩ := h.passEmpty hblocked hvalid hcan hflight hok
    exact ⟨h1, .inl h2⟩
  obtain ⟨q, hq, hok⟩ := bind_eq_ok.mp hok
  rw [orFail_eq_ok] at hq
  split at hok
  · rename_i hprefetch
    cases hok
    exact ⟨h.passPrefetch hblocked hvalid hcan, .inr ⟨rfl, q, ⟨hvalid, hq⟩, hprefetch⟩⟩
  obtain ⟨req, _, hok⟩ := bind_eq_ok.mp hok
  obtain ⟨_, hnew, hok⟩ := bind_eq_ok.mp hok
  obtain ⟨main, _, hok⟩ := bind_eq_ok.mp hok
  rw [require_eq_ok, Bool.not_eq_true'] at hnew
  split at hok
  · cases hok
    exact hsame
  obtain ⟨_, _, hok⟩ := bind_eq_ok.mp hok
  obtain ⟨hsending, hcarries⟩ := h.commitStore req hblocked ⟨hvalid, hq⟩ hcan hnew hflight
  obtain ⟨h1, h2⟩ := hsending.transmit hblocked hok
  refine ⟨h1, .inl (h2.of_carries hcarries rfl fun s hs => ?_)⟩
  have hs' := hs.2
  unfold LSQUnit.commitStore at hs'
  dsimp only at hs'
  rw [show (p.unit.setInst q _).storeWBIt = p.unit.storeWBIt from rfl,
    CircularQueue.get_set_self] at hs'
  exact ⟨hvalid, hs'⟩

/-- A blocked store is sent again. -/
theorem Represents.writebackBlockedStore {isSent : Bool} (h : Represents p)
    (hok : p.writebackBlockedStore isSent = .ok p') : Represents p' ∧ Advances p p' := by
  unfold Pipeline.writebackBlockedStore at hok
  split at hok
  · rename_i hblocked
    obtain ⟨hvalid, hcommitted⟩ := h.blocked hblocked
    obtain ⟨s, hs⟩ := h.rep.storeInst _ hvalid
    have hsending : Sending p s := by
      refine ⟨h.rep, hs, hcommitted, fun ht => ?_⟩
      obtain ⟨hout, hone⟩ := h.tso ht
      rw [hblocked, Bool.and_true] at hone
      rw [hout, hone, hblocked]
      exact ⟨rfl, rfl⟩
    exact hsending.send hok
  · cases hok
    exact ⟨h, .inr ⟨.refl _ _, rfl, rfl⟩⟩

/-! ## Responses -/

/-- **The memory system answers a store** that was sent. -/
theorem Represents.completeStore (h : Represents p) (hj : p.unit.StoreAt j s)
    (hlt : j < p.unit.storeWBIt) (hsent : (p.unit.storeQueue.get j).committed = true)
    (hnew : (p.unit.storeQueue.get j).completed = false) (hok : p.completeStore j = .ok p') :
    Represents p' ∧ WrittenBack p.unit.storeWBIt s p p' ∧
      p'.unit.storeWBIt = p.unit.storeWBIt := by
  obtain ⟨hrep, hback, hit, hout, hb, hn, hf, hkept⟩ := completeStore_spec h.rep hj hlt hnew hok
  rw [hsent] at hout
  have hbit : (true : Bool).toNat = 1 := rfl
  refine ⟨⟨by rw [hit]; exact hrep, fun hb' => ?_, fun ht => ?_⟩, hback, hit⟩
  · rw [hb] at hb'
    obtain ⟨hvalid, hcommitted⟩ := h.blocked hb'
    rw [hit]
    exact hkept _ le_rfl hvalid hcommitted
  · have ht' : p.needsTSO = true := hn ▸ ht
    obtain ⟨hcount, hone⟩ := h.tso ht'
    rw [hf, ht', Bool.not_true, Bool.and_false, hb]
    refine ⟨?_, rfl⟩
    cases hblocked : p.isStoreBlocked with
    | false =>
      rw [hblocked] at hcount
      have : (false : Bool).toNat = 0 := rfl
      have := p.storeInFlight.toNat_le
      omega
    | true =>
      -- the blocked store is counted besides the one that completes
      rw [hblocked, Bool.and_true] at hone
      rw [hone, hblocked] at hcount
      have hzero : (false : Bool).toNat = 0 := rfl
      obtain ⟨hvalid, hcommitted⟩ := h.blocked hblocked
      obtain ⟨hvalid', hcommitted'⟩ := hkept _ le_rfl hvalid hcommitted
      have hpending := hrep.after _ hvalid' le_rfl
      have hpos : 0 < p'.unit.outstanding := CircularQueue.count_pos hvalid' (by
        rw [Function.comp_apply]
        unfold Status.outstanding SQEntry.status
        dsimp only
        rw [hcommitted', hpending]
        rfl)
      omega

/-! ## Executions -/

/-- A held load leaves the queues as they are, the record of the stall apart. -/
theorem Holds.recorded {v : LSQUnit} {load_idx : ℕ} (h : Holds u q load_idx j v) :
    ∃ t, Framed t v ∧ (t = u ∨ ∃ st, t = u.recordStall st load_idx) := by
  rcases h.record with ⟨st, -, hframed, -⟩ | ⟨hframed, -, -⟩
  · exact ⟨_, hframed, .inr ⟨st, rfl⟩⟩
  · exact ⟨_, hframed, .inl rfl⟩

theorem RepAt.recordStall (h : RepAt u w) (st : InstSeqNum) (load_idx : ℕ) :
    RepAt (u.recordStall st load_idx) w :=
  h.same (.refl _) (.refl _) rfl rfl rfl fun _ => .refl _

/-- **The execution of a load** either keeps the frame or holds the load. -/
theorem executeLoad_cases {i : ℕ} {acc : Access} {r : ExecFault × LSQUnit} (h : RepAt u w)
    (hi : u.LoadAt i q) (hok : u.executeLoad q acc = .ok r) :
    (u.holds q acc = false ∧ Framed u r.2) ∨
      (u.holds q acc = true ∧ ∃ v k, Framed u v ∧ u.storeWBIt ≤ k ∧ k < (u.insts q).sqIt ∧
        (∀ st, (u.storeQueue.get k).inst = some st → st < q) ∧ Holds v q i k r.2) := by
  obtain ⟨hkind, hidx⟩ := h.loadPlace i q hi
  obtain ⟨v, hv, hrest⟩ := executeLoad_spec hok
  rcases initiateAcc_load hkind hv with ⟨hpush, hframed⟩ | ⟨push, out, hpush, hread⟩
  · refine .inl ⟨?_, hframed.trans hrest⟩
    unfold LSQUnit.holds
    rw [hpush]
  have haddressed : Framed u (u.addressed q acc push) := framed_addressed q acc push
  have hholds : u.holds q acc = decide (out = .held) := by
    unfold LSQUnit.holds
    rw [hpush]
    dsimp only
    rw [hread]
    cases out <;> rfl
  rcases read_spec hread with
    ⟨hne, hframed⟩ | ⟨hheld, t, q', k, hframed, hq', hlow, hhigh, hold, hh⟩
  · refine .inl ⟨?_, (haddressed.trans hframed).trans hrest⟩
    rw [hholds]
    exact decide_eq_false hne
  · rw [hidx, haddressed.loadQueue.get, hi.2] at hq'
    obtain rfl := Option.some.inj hq'
    rw [haddressed.storeWBIt] at hlow
    rw [(haddressed.insts q).sqIt] at hhigh
    refine .inr ⟨by rw [hholds]; exact decide_eq_true hheld, t, k, haddressed.trans hframed, hlow,
      hhigh, fun st hst => hold st ?_, ⟨hh.completed, ?_⟩⟩
    · rw [← hst]
      exact congrArg Status.inst (haddressed.storeQueue.get k)
    · rw [hidx] at hh
      rcases hh.record with ⟨st, hst, hrec, hfirst⟩ | ⟨hrec, hfirst⟩
      · exact .inl ⟨st, hst, hrec.trans hrest, hfirst⟩
      · exact .inr ⟨hrec.trans hrest, hfirst⟩

theorem Represents.executeLoad {i : ℕ} {acc : Access} (h : Represents p) (hi : p.unit.LoadAt i q)
    (hok : p.executeLoad q acc = .ok p') : Represents p' := by
  unfold Pipeline.executeLoad at hok
  obtain ⟨r, hr, hok⟩ := bind_eq_ok.mp hok
  cases hok
  rcases executeLoad_cases h.rep hi hr with ⟨-, hframed⟩ | ⟨-, v, k, hframed, -, -, -, hholds⟩
  · exact h.carries (h.rep.framed hframed) (hframed.carries _) hframed.outstanding _
  · obtain ⟨t, hrest, ht⟩ := hholds.recorded
    have hv := h.rep.framed hframed
    have hcommitted := (hframed.carries p.unit.storeWBIt).committed
    rcases ht with rfl | ⟨st, rfl⟩
    · have hall := hframed.trans hrest
      exact h.carries (h.rep.framed hall) (hall.carries _) hall.outstanding _
    · refine h.of_unit ((hv.recordStall st i).framed hrest)
        (hrest.storeWBIt.trans hframed.storeWBIt) (fun j hj hvalid hc => ?_)
        (hrest.outstanding.trans hframed.outstanding) _
      obtain ⟨h1, h2⟩ := hcommitted j hj hvalid hc
      exact (hrest.carries p.unit.storeWBIt).committed j hj h1 h2

/-- **The execution of a store.** -/
theorem RepAt.executeStore {acc : Access} {r : ExecFault × LSQUnit} (h : RepAt u w)
    (hj : u.StoreAt j s) (hcan : (u.storeQueue.get j).canWB = false)
    (hok : u.executeStore s acc = .ok r) :
    RepAt r.2 w ∧ Carries w u r.2 ∧ r.2.outstanding = u.outstanding ∧
      ∀ i q, u.LoadAt i q → r.2.LoadAt i q := by
  obtain ⟨hkind, hidx⟩ := h.storePlace j s hj
  rcases executeStore_spec hkind hok with hframed | ⟨v, hv, hrest⟩
  · exact ⟨h.framed hframed, hframed.carries w, hframed.outstanding,
      fun i q hi => (hframed.loadAt i q).mpr hi⟩
  · rw [hidx] at hrest
    have hcan' : (v.storeQueue.get j).canWB = false := by
      rw [← hcan]
      exact congrArg Status.canWB (hv.storeQueue.get j)
    obtain ⟨h1, h2, h3⟩ := (h.framed hv).allowWB ((hv.storeQueue.valid j).mpr hj.1) hcan'
    exact ⟨h1.framed hrest, ((hv.carries w).trans h2).trans (hrest.carries w),
      (hrest.outstanding.trans h3).trans hv.outstanding,
      fun i q hi => (hrest.loadAt i q).mpr ((hv.loadAt i q).mpr hi)⟩

/-! ## Main result -/

theorem framed_update (u : LSQUnit) (q : InstSeqNum) (i : DynInst) :
    Framed u (u.setInst q ((u.insts q).updated i)) :=
  framed_setInst (by exact ⟨rfl, rfl, rfl, rfl⟩)

/-- What one step preserves. -/
theorem Represents.step {a : PipelineAction} (h : Represents p) (hadm : p.Admits a)
    (hok : p.step a = .ok p') : Represents p' := by
  cases a with
  | insertLoad q i =>
    obtain ⟨u, hu, hok⟩ := bind_eq_ok.mp hok
    cases hok
    obtain ⟨h1, h2, h3, -⟩ := h.rep.insertLoad hadm.1 hadm.2 hu
    exact h.carries h1 h2 h3 _
  | insertStore q i =>
    obtain ⟨u, hu, hok⟩ := bind_eq_ok.mp hok
    cases hok
    obtain ⟨h1, h2, h3, -⟩ := h.rep.insertStore hadm.1 hadm.2 hu
    exact h.carries h1 h2 h3 _
  | executeLoad q acc =>
    obtain ⟨i, hi⟩ := hadm
    exact h.executeLoad hi hok
  | executeStore s acc =>
    obtain ⟨k, hk, hcan⟩ := hadm
    obtain ⟨r, hr, hok⟩ := bind_eq_ok.mp hok
    cases hok
    obtain ⟨h1, h2, h3, -⟩ := h.rep.executeStore hk hcan hr
    exact h.carries h1 h2 h3 _
  | update q i =>
    cases hok
    have hframed := framed_update p.unit q i
    exact h.carries (h.rep.framed hframed) (hframed.carries _) hframed.outstanding _
  | commitLoads y =>
    obtain ⟨u, hu, hok⟩ := bind_eq_ok.mp hok
    cases hok
    obtain ⟨h1, h2⟩ := h.rep.commitLoads hu
    exact h.carries h1 (h2.carries _) h2.outstanding _
  | commitStores y =>
    obtain ⟨u, hu, hok⟩ := bind_eq_ok.mp hok
    cases hok
    obtain ⟨h1, h2, h3, -⟩ := h.rep.commitStores hu
    exact h.carries h1 h2 h3 _
  | writebackBlockedStore isSent => exact (h.writebackBlockedStore hok).1
  | writebackRound r => exact (h.writebackRound hok).1
  | completeStore k =>
    obtain ⟨hlow, hlt, hsent, hnew⟩ := hadm
    obtain ⟨s, hs⟩ := h.rep.storeInst k ⟨hlow, hlt.trans_le h.rep.le_end⟩
    exact (h.completeStore hs hlt hsent hnew hok).1
  | squash n =>
    unfold Pipeline.step Pipeline.squash at hok
    obtain ⟨u, hu, hok⟩ := bind_eq_ok.mp hok
    cases hok
    have hmark := framed_markSquashed p.unit n
    obtain ⟨hrep, v, v', hloads, -, hframed, hstores⟩ := (h.rep.framed hmark).squash hu
    have hout : v.outstanding = p.unit.outstanding := by
      unfold LSQUnit.outstanding
      rw [hloads.storeQueue]
      rfl
    refine h.of_unit hrep
      ((hstores.storeWBIt.trans hframed.storeWBIt).trans hloads.storeWBIt) (fun j hj hv hc => ?_)
      ((hstores.outstanding.trans hframed.outstanding).trans hout) _
    refine hstores.committed j ((hframed.storeQueue.valid j).mpr ?_)
      ((congrArg Status.committed (hframed.storeQueue.get j)).trans ?_)
    · rw [hloads.storeQueue]
      exact hv
    · show (v.storeQueue.get j).committed = true
      rw [hloads.storeQueue]
      exact hc
  | replay =>
    cases hok
    exact ⟨h.rep, h.blocked, h.tso⟩

/-- The counters, the write-back position, the order of the entries and the stores in flight. -/
structure Consistent (p : Pipeline) : Prop where
  loads : p.unit.loads = p.unit.loadQueue.size
  stores : p.unit.stores = p.unit.storeQueue.size
  storesToWB : p.unit.storesToWB =
    p.unit.storeQueue.entries.countP fun x => x.canWB && !x.completed
  storeWBIt : p.unit.storeQueue.head ≤ p.unit.storeWBIt ∧
    p.unit.storeWBIt ≤ p.unit.storeQueue.endIdx
  canWB : ∀ j, p.unit.storeQueue.IsValidIdx j → j < p.unit.storeWBIt →
    (p.unit.storeQueue.get j).canWB = true
  loadsSorted : ∃ qs : List InstSeqNum,
    p.unit.loadQueue.entries.map (·.inst) = qs.map some ∧ qs.Pairwise (· < ·)
  storesSorted : ∃ qs : List InstSeqNum,
    p.unit.storeQueue.entries.map (·.inst) = qs.map some ∧ qs.Pairwise (· < ·)
  /-- a store counts as sent once it was handed to the memory system, even if that is blocked -/
  tso : p.needsTSO = true →
    (p.unit.storeQueue.entries.countP fun x => x.committed && !x.completed) ≤ 1

theorem Represents.consistent (h : Represents p) : Consistent p where
  loads := h.rep.loads
  stores := h.rep.stores
  storesToWB := h.rep.storesToWB
  storeWBIt := ⟨h.rep.head_le, by
    rw [CircularQueue.endIdx_eq h.rep.sqFits]
    exact h.rep.le_end⟩
  canWB := h.rep.before
  loadsSorted := CircularQueue.map_entries_sorted
    (fun i hi => (h.rep.loadInst i hi).imp fun _ => And.right)
    fun i i' q q' hi hi' hq hq' => h.rep.loadsSorted i i' q q' ⟨hi, hq⟩ ⟨hi', hq'⟩
  storesSorted := CircularQueue.map_entries_sorted
    (fun j hj => (h.rep.storeInst j hj).imp fun _ => And.right)
    fun j j' s s' hj hj' hs hs' => h.rep.storesSorted j j' s s' ⟨hj, hs⟩ ⟨hj', hs'⟩
  tso ht := by
    obtain ⟨hout, hone⟩ := h.tso ht
    refine le_of_eq_of_le (show _ = p.unit.outstanding from rfl) ?_
    rw [hout]
    cases hf : p.storeInFlight with
    | false => exact (Nat.zero_add _).trans_le p.isStoreBlocked.toNat_le
    | true =>
      rw [hf, Bool.true_and] at hone
      rw [hone]
      exact le_rfl

/-- **The representation invariant of the load/store unit.**  After every run in program order the
counters count the entries, the write-back position separates the stores, both queues are sorted by
age, and under total store ordering at most one store is on its way. -/
theorem represents_reached {lqEntries sqEntries depCheckShift : ℕ} {checkLoads needsTSO : Bool}
    {as : List PipelineAction}
    (hadm : Admitted Pipeline.Admits Pipeline.step
      (.new lqEntries sqEntries depCheckShift checkLoads needsTSO) as)
    (hrun : run Pipeline.step (.new lqEntries sqEntries depCheckShift checkLoads needsTSO) as =
      .ok p) : Consistent p := by
  have h := run_invariant (P := Represents) (fun _ _ _ h hadm hok => h.step hadm hok)
    (represents_new lqEntries sqEntries depCheckShift checkLoads needsTSO) hadm hrun
  exact h.consistent

/-- **A squash is precise.**  In every state that is reached in program order exactly the loads
younger than `n` leave, the stores that are not younger and those that were handed to the memory
system keep their slots, and the unit stays consistent. -/
theorem squash_precise {lqEntries sqEntries depCheckShift : ℕ} {checkLoads needsTSO : Bool}
    {as : List PipelineAction}
    (hadm : Admitted Pipeline.Admits Pipeline.step
      (.new lqEntries sqEntries depCheckShift checkLoads needsTSO) as)
    (hrun : run Pipeline.step (.new lqEntries sqEntries depCheckShift checkLoads needsTSO) as =
      .ok p) {n : InstSeqNum} {p' : Pipeline} (hok : p.squash n = .ok p') :
    (∀ i q, p'.unit.LoadAt i q ↔ p.unit.LoadAt i q ∧ q ≤ n) ∧
      (∀ j s, s ≤ n → p.unit.StoreAt j s → p'.unit.StoreAt j s) ∧
      (∀ j, p.unit.storeQueue.IsValidIdx j → (p.unit.storeQueue.get j).committed = true →
        p'.unit.storeQueue.IsValidIdx j ∧ (p'.unit.storeQueue.get j).committed = true) ∧
      p'.unit.storeWBIt = p.unit.storeWBIt ∧ Consistent p' := by
  have h := run_invariant (P := Represents) (fun _ _ _ h hadm hok => h.step hadm hok)
    (represents_new lqEntries sqEntries depCheckShift checkLoads needsTSO) hadm hrun
  have hconsistent := (h.step (a := .squash n) trivial hok).consistent
  obtain ⟨u, hu, hok⟩ := bind_eq_ok.mp hok
  cases hok
  have hmarked := framed_markSquashed p.unit n
  obtain ⟨-, v, v', hloads, hold, hframed, hstores⟩ := (h.rep.framed hmarked).squash hu
  refine ⟨fun i q => ?_, fun j s hs hj => ?_, fun j hj hc => ?_, ?_, hconsistent⟩
  · constructor
    · intro hi
      have hv := (hframed.loadAt i q).mp (loadAt_congr hstores.loadQueue.symm hi)
      exact ⟨(hmarked.loadAt i q).mp (hloads.sub i q hv), hold i q hv⟩
    · rintro ⟨hi, hq⟩
      have hv := hloads.loadAt i q hq ((hmarked.loadAt i q).mpr hi)
      exact loadAt_congr hstores.loadQueue ((hframed.loadAt i q).mpr hv)
  · apply hstores.storeAt j s hs
    apply (hframed.storeAt j s).mpr
    exact storeAt_congr hloads.storeQueue ((hmarked.storeAt j s).mpr hj)
  · obtain ⟨hj, hc⟩ := (hmarked.carries 0).committed j (Nat.zero_le j) hj hc
    rw [← hloads.storeQueue] at hj hc
    obtain ⟨hj, hc⟩ := (hframed.carries 0).committed j (Nat.zero_le j) hj hc
    exact hstores.committed j hj hc
  · exact hstores.storeWBIt.trans
      (hframed.storeWBIt.trans (hloads.storeWBIt.trans hmarked.storeWBIt))

end

/-- Two stores commit under total store ordering; the older one is sent and the other one waits. -/
def twoStores : List PipelineAction :=
  [.insertStore 1 {}, .insertStore 2 {}, .executeStore 2 (accessAt 0x1000 4),
    .executeStore 1 (accessAt 0x2000 8), .commitStores 2, .writebackRound {}, .writebackRound {}]

theorem represents_reached_twoStores :
    ∃ p, run Pipeline.step (.new 4 4 0 false true) twoStores = .ok p ∧ Consistent p ∧
      p.unit.storesToWB = 2 ∧ p.unit.storeWBIt = 2 ∧ p.storeInFlight = true := by
  obtain ⟨p, hrun, hp⟩ : ∃ p, run Pipeline.step (.new 4 4 0 false true) twoStores = .ok p ∧
      p.unit.storesToWB = 2 ∧ p.unit.storeWBIt = 2 ∧ p.storeInFlight = true := by
    decide +kernel
  exact ⟨p, hrun, represents_reached (by decide +kernel) hrun, hp⟩

/-- Two loads behind a store. -/
def twoLoads : List PipelineAction :=
  [.insertStore 1 {}, .insertLoad 2 { isLoad := true }, .insertLoad 3 { isLoad := true }]

theorem squash_precise_twoLoads :
    ∃ p, run Pipeline.step (.new 4 4 0 false false) twoLoads = .ok p ∧
      ∃ p', p.squash 2 = .ok p' ∧ p'.unit.loads = 1 ∧ Consistent p' := by
  obtain ⟨p, hrun, p', hsquash, hloads⟩ :
      ∃ p, run Pipeline.step (.new 4 4 0 false false) twoLoads = .ok p ∧
        ∃ p', p.squash 2 = .ok p' ∧ p'.unit.loads = 1 := by decide +kernel
  exact ⟨p, hrun, p', hsquash, hloads,
    (squash_precise (by decide +kernel) hrun hsquash).2.2.2.2⟩

end Gem5.Lsq
