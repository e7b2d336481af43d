/-
# The ready list of the miss queue

The lists of `Gem5.MissQueue` over whole runs.  What each register is on (free, allocated, ready)
and the two counters hold in every run.  The order of the ready list, and with it that the first
entry is the next one to be ready, holds as long as no operation gives an entry on the list a ready
time that does not fit where the entry is.
-/
import Gem5.MissQueue

namespace Gem5.Mem

open Runs Ordered

namespace Queue

variable {E : Type}

/-! ## One entry replaced -/

section Entries

variable [IsQueueEntry E]

theorem inService_setEntry (q : Queue E) (id : ℕ) (e : E) :
    (q.setEntry id e).inService =
      Function.update q.inService id (IsQueueEntry.base e).inService := by
  funext i
  by_cases hi : i = id
  · subst hi
    simp [Queue.inService, Queue.entry, Queue.setEntry]
  · simp [Queue.inService, Queue.entry, Queue.setEntry, hi]

theorem readyTime_setEntry (q : Queue E) (id : ℕ) (e : E) :
    (q.setEntry id e).readyTime =
      Function.update q.readyTime id (IsQueueEntry.base e).readyTime := by
  funext i
  by_cases hi : i = id
  · subst hi
    simp [Queue.readyTime, Queue.entry, Queue.setEntry]
  · simp [Queue.readyTime, Queue.entry, Queue.setEntry, hi]

/-! ## The invariants -/

/-- Each entry is on the lists that it should be on, and the counters count. -/
structure WellFormed (q : Queue E) : Prop where
  partition : (q.freeList ++ q.allocatedList).Perm (List.range q.numEntries)
  allocated : q.allocated = q.allocatedList.length
  ready_nodup : q.readyList.Nodup
  ready : ∀ id, id ∈ q.readyList ↔ id ∈ q.allocatedList ∧ q.inService id = false
  idle : ∀ id, q.inService id = true → id ∈ q.allocatedList
  numInService : q.numInService = q.allocatedList.countP q.inService

/-- The ready list is in the order of the ready times. -/
def Timed (q : Queue E) : Prop :=
  q.readyList.Pairwise fun a b => q.readyTime a ≤ q.readyTime b

namespace WellFormed

variable {q : Queue E}

theorem nodup (h : q.WellFormed) : (q.freeList ++ q.allocatedList).Nodup :=
  h.partition.nodup_iff.mpr List.nodup_range

theorem not_ready (h : q.WellFormed) {id : ℕ} (hs : q.inService id = true) : id ∉ q.readyList := by
  intro hr
  have := ((h.ready id).mp hr).2
  rw [hs] at this
  cases this

/-- A change of an entry that leaves it in or out of service. -/
theorem setEntry (h : q.WellFormed) {id : ℕ} {e : E}
    (he : (IsQueueEntry.base e).inService = q.inService id) : (q.setEntry id e).WellFormed := by
  have hsame : (q.setEntry id e).inService = q.inService := by
    rw [inService_setEntry, he, Function.update_eq_self]
  exact {
    partition := h.partition
    allocated := h.allocated
    ready_nodup := h.ready_nodup
    ready := by rw [hsame]; exact h.ready
    idle := by rw [hsame]; exact h.idle
    numInService := by rw [hsame]; exact h.numInService }

end WellFormed

/-! ## Insertion into the ready list -/

theorem le_getLast {α : Type*} {t : α → ℕ} {l : List α} {b : α}
    (hl : l.Pairwise fun x y => t x ≤ t y) (hb : l.getLast? = some b) : ∀ a ∈ l, t a ≤ t b := by
  obtain ⟨l', rfl⟩ := List.getLast?_eq_some_iff.mp hb
  intro a ha
  rcases List.mem_append.mp ha with ha | ha
  · exact (List.pairwise_append.mp hl).2.2 a ha b (List.mem_singleton_self b)
  · rw [List.mem_singleton.mp ha]

/-- `addToReadyList` adds the entry to the list, at its place if the list is in order. -/
theorem addToReadyList_spec (q : Queue E) (id : ℕ) :
    ∃ l, q.addToReadyList id = .ok { q with readyList := l } ∧ l.Perm (id :: q.readyList) ∧
      (q.Timed → l.Pairwise fun a b => q.readyTime a ≤ q.readyTime b) := by
  have hadd : ∀ l, q.insertReady id = some l →
      q.addToReadyList id = .ok { q with readyList := l } := by
    intro l hl
    exact bind_eq_ok.mpr ⟨l, orFail_eq_ok.mpr hl, rfl⟩
  unfold insertReady at hadd
  cases hb : q.readyList.getLast? with
  | none =>
    rw [hb] at hadd
    have hnil : q.readyList = [] := List.getLast?_eq_none_iff.mp hb
    refine ⟨_, hadd _ rfl, by simp [hnil], fun _ => by simp [hnil]⟩
  | some back =>
    rw [hb] at hadd
    dsimp only at hadd
    by_cases hle : q.readyTime back ≤ q.readyTime id
    · rw [if_pos hle] at hadd
      refine ⟨_, hadd _ rfl, List.perm_append_singleton id q.readyList, fun ht => ?_⟩
      refine List.pairwise_append.mpr ⟨ht, List.pairwise_singleton _ _, ?_⟩
      intro a ha b hb'
      rw [List.mem_singleton.mp hb']
      exact (le_getLast ht hb a ha).trans hle
    · -- the last entry is ready later, so there is a place before it
      rw [if_neg hle] at hadd
      have hsome : ∃ l, insertBefore (fun i => decide (q.readyTime id < q.readyTime i)) id
          q.readyList = some l :=
        insertBefore_isSome ⟨back, List.mem_of_getLast? hb, decide_eq_true (not_le.mp hle)⟩
      obtain ⟨l, hl⟩ := hsome
      exact ⟨l, hadd l hl, insertBefore_perm hl, fun ht => insertBefore_sorted ht hl⟩

/-- All is well, except that the waiting entry `id` is not on the ready list. -/
structure Pending (q : Queue E) (id : ℕ) : Prop where
  partition : (q.freeList ++ q.allocatedList).Perm (List.range q.numEntries)
  allocated : q.allocated = q.allocatedList.length
  ready_nodup : q.readyList.Nodup
  ready : ∀ i, i ∈ q.readyList ↔ (i ∈ q.allocatedList ∧ q.inService i = false) ∧ i ≠ id
  waits : id ∈ q.allocatedList ∧ q.inService id = false
  idle : ∀ i, q.inService i = true → i ∈ q.allocatedList
  numInService : q.numInService = q.allocatedList.countP q.inService

variable {id : ℕ} {q : Queue E}

/-- Adding the entry makes all well, and keeps the order. -/
theorem Pending.addToReadyList {q' : Queue E} (h : q.Pending id) (hq : q.addToReadyList id = .ok q')
    :
    q'.WellFormed ∧ (q.Timed → q'.Timed) := by
  obtain ⟨l, hadd, hperm, hsorted⟩ := addToReadyList_spec q id
  rw [hadd, Except.ok.injEq] at hq
  subst hq
  refine ⟨?_, hsorted⟩
  exact {
    partition := h.partition
    allocated := h.allocated
    ready_nodup := by
      apply hperm.nodup_iff.mpr
      exact List.nodup_cons.mpr ⟨fun hr => ((h.ready id).mp hr).2 rfl, h.ready_nodup⟩
    ready := by
      intro i
      refine Iff.trans (hperm.mem_iff.trans List.mem_cons) ?_
      by_cases hi : i = id
      · subst hi
        exact ⟨fun _ => h.waits, fun _ => .inl rfl⟩
      · simp only [hi, false_or]
        exact (h.ready i).trans (and_iff_left hi)
    idle := h.idle
    numInService := h.numInService }

omit [IsQueueEntry E] in
theorem eraseReady_eq_ok {q' : Queue E} :
    q.eraseReady id = .ok q' ↔
      id ∈ q.readyList ∧ { q with readyList := q.readyList.erase id } = q' := by
  unfold eraseReady
  constructor
  · intro h
    obtain ⟨_, hr, h⟩ := bind_eq_ok.mp h
    exact ⟨of_decide_eq_true (require_eq_ok.mp hr), Except.ok.inj h⟩
  · rintro ⟨hr, rfl⟩
    exact bind_eq_ok.mpr ⟨_, require_ok (decide_eq_true hr), rfl⟩

/-- A change of an entry that is not on the ready list does not touch the order. -/
theorem Timed.setEntry_of_notMem {e : E} (h : q.Timed) (hid : id ∉ q.readyList) :
    (q.setEntry id e).Timed := by
  unfold Timed
  rw [readyTime_setEntry]
  apply List.Pairwise.imp_of_mem _ h
  intro a b ha hb hab
  have hane : a ≠ id := fun h => hid (by rwa [← h])
  have hbne : b ≠ id := fun h => hid (by rwa [← h])
  rwa [Function.update_of_ne hane, Function.update_of_ne hbne]

/-- The ready time `t` fits where the entry is on the list. -/
def Fits (q : Queue E) (id t : ℕ) : Prop :=
  (∀ i ∈ q.readyList.takeWhile (· ≠ id), q.readyTime i ≤ t) ∧
    ∀ i ∈ (q.readyList.dropWhile (· ≠ id)).tail, t ≤ q.readyTime i

instance (q : Queue E) (id t : ℕ) : Decidable (q.Fits id t) :=
  inferInstanceAs (Decidable (_ ∧ _))

/-- A change of an entry to a ready time that fits. -/
theorem Timed.setEntry_of_fits {e : E} (h : q.Timed) (hnd : q.readyList.Nodup)
    (hfits : q.Fits id (IsQueueEntry.base e).readyTime) :
    (q.setEntry id e).Timed := by
  unfold Timed
  rw [readyTime_setEntry]
  exact pairwise_update h hnd hfits.1 hfits.2

/-- A change that leaves the ready time alone. -/
theorem Timed.setEntry_of_eq {e : E} (h : q.Timed)
    (he : (IsQueueEntry.base e).readyTime = q.readyTime id) : (q.setEntry id e).Timed := by
  unfold Timed
  rw [readyTime_setEntry, he, Function.update_eq_self]
  exact h

theorem Timed.erase (h : q.Timed) (id : ℕ) :
    Timed { q with readyList := q.readyList.erase id } :=
  List.Pairwise.sublist List.erase_sublist h

/-! ## The next entry -/

/-- On a list in order the first entry is the next one to be ready. -/
theorem Timed.nextReadyTime (h : q.Timed) (hne : q.readyList ≠ []) :
    IsLeast {t | ∃ id ∈ q.readyList, q.readyTime id = t} q.nextReadyTime := by
  unfold Timed at h
  unfold Queue.nextReadyTime
  cases hl : q.readyList with
  | nil => exact absurd hl hne
  | cons front rest =>
    rw [hl] at h
    refine ⟨⟨front, List.mem_cons_self, rfl⟩, ?_⟩
    rintro t ⟨id, hid, rfl⟩
    rcases List.mem_cons.mp hid with rfl | hid
    · exact le_refl _
    · exact (List.pairwise_cons.mp h).1 id hid

/-- On a list in order `getNext` finds an entry as soon as some entry is ready. -/
theorem Timed.getNext (h : q.Timed) {curTick : ℕ} (hid : id ∈ q.readyList)
    (ht : q.readyTime id ≤ curTick) :
    ∃ front ∈ q.readyList, q.getNext curTick = some front ∧ q.readyTime front ≤ curTick := by
  have hmin := h.nextReadyTime (List.ne_nil_of_mem hid)
  unfold Queue.getNext
  cases hl : q.readyList with
  | nil =>
    rw [hl] at hid
    exact absurd hid List.not_mem_nil
  | cons front rest =>
    have hfront : q.nextReadyTime = q.readyTime front := by
      unfold Queue.nextReadyTime
      rw [hl, List.head?_cons, Option.map_some, Option.getD_some]
    have hle : q.readyTime front ≤ curTick := hfront ▸ (hmin.2 ⟨id, hid, rfl⟩).trans ht
    exact ⟨front, List.mem_cons_self, if_neg (not_lt.mpr hle), hle⟩

/-! ## Releasing an entry -/

/-- The entry is freed and out of service, on the lists as in the counters. -/
theorem WellFormed.freed (h : q.WellFormed) {e : E} {ready : List ℕ} {count : ℤ}
    (hid : id ∈ q.allocatedList) (he : (IsQueueEntry.base e).inService = false) (hnd : ready.Nodup)
    (hready : ∀ i, i ∈ ready ↔ i ∈ q.readyList ∧ i ≠ id)
    (hcount : count = (q.allocatedList.erase id).countP q.inService) :
    WellFormed { q.setEntry id e with
      allocatedList := q.allocatedList.erase id
      freeList := id :: q.freeList
      allocated := q.allocated - 1
      readyList := ready
      numInService := count } := by
  have hperm : q.allocatedList.Perm (id :: q.allocatedList.erase id) := List.perm_cons_erase hid
  have halloc : (id :: q.allocatedList.erase id).Nodup :=
    hperm.nodup_iff.mp (List.nodup_append.mp h.nodup).2.1
  have hout : id ∉ q.allocatedList.erase id := (List.nodup_cons.mp halloc).1
  have hmem : ∀ i, i ≠ id → (i ∈ q.allocatedList.erase id ↔ i ∈ q.allocatedList) := by
    intro i hi
    exact List.mem_erase_of_ne hi
  have hother : ∀ i, i ≠ id → (q.setEntry id e).inService i = q.inService i := by
    intro i hi
    rw [inService_setEntry, Function.update_of_ne hi]
  have hself : (q.setEntry id e).inService id = false := by
    rw [inService_setEntry, Function.update_self, he]
  exact {
    partition := by
      refine List.Perm.trans ?_ h.partition
      exact List.perm_middle.symm.trans (hperm.symm.append_left q.freeList)
    allocated := by
      have hlen := List.length_erase_of_mem hid
      have hpos := List.length_pos_of_mem hid
      have := h.allocated
      dsimp only
      omega
    ready_nodup := hnd
    ready := by
      intro i
      refine (hready i).trans ?_
      change _ ↔ i ∈ q.allocatedList.erase id ∧ (q.setEntry id e).inService i = false
      by_cases hi : i = id
      · subst hi
        simp [hout]
      · rw [hmem i hi, hother i hi]
        exact (and_iff_left hi).trans (h.ready i)
    idle := by
      intro i hs
      change (q.setEntry id e).inService i = true at hs
      have hi : i ≠ id := by
        rintro rfl
        rw [hself] at hs
        cases hs
      rw [hother i hi] at hs
      exact (hmem i hi).mpr (h.idle i hs)
    numInService := by
      rw [hcount]
      apply congrArg Nat.cast
      apply List.countP_congr
      intro i hi
      have hne : i ≠ id := fun heq => hout (heq ▸ hi)
      exact iff_of_eq (congrArg (· = true) (hother i hne).symm) }

/-- Releasing an allocated entry. -/
theorem release_spec {q' : Queue E} {e : E} (h : q.WellFormed)
    (he : (IsQueueEntry.base e).inService = false) (hq : q.release id = .ok q') :
    (q'.setEntry id e).WellFormed ∧ (q.Timed → (q'.setEntry id e).Timed) := by
  obtain ⟨_, hmem, hq⟩ := bind_eq_ok.mp hq
  have hid : id ∈ q.allocatedList := of_decide_eq_true (require_eq_ok.mp hmem)
  have hcount : q.allocatedList.countP q.inService =
      (q.allocatedList.erase id).countP q.inService + if q.inService id then 1 else 0 := by
    rw [(List.perm_cons_erase hid).countP_eq, List.countP_cons]
  have hnum := h.numInService
  split at hq
  next hs =>
    have hout : id ∉ q.readyList := h.not_ready hs
    obtain rfl := Except.ok.inj hq
    rw [hs, if_pos rfl] at hcount
    have hless : q.numInService - 1 = (q.allocatedList.erase id).countP q.inService := by omega
    refine ⟨h.freed hid he h.ready_nodup ?_ hless, ?_⟩
    · intro i
      exact ⟨fun hi => ⟨hi, fun heq => hout (heq ▸ hi)⟩, fun hi => hi.1⟩
    · intro ht
      exact Timed.setEntry_of_notMem ht hout
  next hs =>
    obtain ⟨hr, rfl⟩ := eraseReady_eq_ok.mp hq
    have hfalse : q.inService id = false := by simpa using hs
    rw [hfalse, if_neg Bool.false_ne_true] at hcount
    have hsame : q.numInService = (q.allocatedList.erase id).countP q.inService := by omega
    have hmem' : ∀ i, i ∈ q.readyList.erase id ↔ i ∈ q.readyList ∧ i ≠ id := by
      intro i
      rw [h.ready_nodup.mem_erase_iff, and_comm]
    refine ⟨h.freed hid he (h.ready_nodup.erase id) hmem' hsame, ?_⟩
    · intro ht
      have herase : Timed { q with readyList := q.readyList.erase id } := Timed.erase ht id
      refine Timed.setEntry_of_notMem herase fun hi => ?_
      exact ((hmem' id).mp hi).2 rfl

/-- A queue that is not full has a free entry. -/
theorem WellFormed.freeList_ne_nil (h : q.WellFormed) (hfull : q.isFull = false) :
    q.freeList ≠ [] := by
  intro hnil
  have hlen := h.partition.length_eq
  have hallocated := h.allocated
  rw [hnil, List.nil_append, List.length_range] at hlen
  unfold isFull at hfull
  simp only [ge_iff_le, decide_eq_false_iff_not, not_le] at hfull
  omega

end Entries

end Queue

/-! ## The operations of the miss queue -/

namespace MSHRQueue

open Queue

theorem mapError_eq_ok {α ε ε' : Type} {f : ε → ε'} {x : Except ε α} {a : α} :
    x.mapError f = .ok a ↔ x = .ok a := by
  cases x <;> simp [Except.mapError]

variable {q q' : MSHRQueue} {id curTick : ℕ} {e : MissEntry}

theorem onMshr_eq_ok {f : MSHR → Except MshrFail MSHR} :
    onMshr q id f = .ok q' ↔ ∃ mshr, f (q.entries id).mshr = .ok mshr ∧
      q.setEntry id { q.entries id with mshr := mshr } = q' := by
  unfold onMshr
  constructor
  · intro h
    obtain ⟨mshr, hf, h⟩ := bind_eq_ok.mp h
    exact ⟨mshr, mapError_eq_ok.mp hf, Except.ok.inj h⟩
  · rintro ⟨mshr, hf, rfl⟩
    exact bind_eq_ok.mpr ⟨mshr, mapError_eq_ok.mpr hf, rfl⟩

/-! ### What the register does -/

theorem allocate_inService {m m' : MSHR} {blkSize whenReady order : ℕ} {pkt : MissPacket}
    {allocOnFill : Bool} (h : m.allocate blkSize pkt whenReady order allocOnFill = .ok m') :
    m'.inService = false := by
  obtain ⟨_, _, h⟩ := bind_eq_ok.mp h
  rw [← Except.ok.inj h]

theorem markInService_inService {m m' : MSHR} {pendingModifiedResp : Bool}
    (h : m.markInService pendingModifiedResp = .ok m') :
    m.inService = false ∧ m'.inService = true := by
  obtain ⟨_, hs, h⟩ := bind_eq_ok.mp h
  rw [← Except.ok.inj h]
  exact ⟨by simpa using require_eq_ok.mp hs, rfl⟩

theorem deallocate_inService {m m' : MSHR} (h : m.deallocate = .ok m') : m'.inService = false := by
  obtain ⟨_, _, h⟩ := bind_eq_ok.mp h
  obtain ⟨_, _, h⟩ := bind_eq_ok.mp h
  rw [← Except.ok.inj h]

theorem promoteDeferredTargets_inService (m : MSHR) (curTick : ℕ) :
    (m.promoteDeferredTargets curTick).2.inService = m.inService := by
  unfold MSHR.promoteDeferredTargets
  split <;> rfl

theorem dropTarget_inService (m : MSHR) (curTick : ℕ) :
    (dropTarget m curTick).2.inService = m.inService := by
  unfold dropTarget
  split
  · exact promoteDeferredTargets_inService _ curTick
  · rfl

/-- A register that is left without a target keeps its ready time. -/
theorem dropTarget_readyTime {m : MSHR} (h : (dropTarget m curTick).1 = true) :
    (dropTarget m curTick).2.readyTime = m.readyTime := by
  unfold dropTarget at h ⊢
  split at h
  next hempty =>
    rw [if_pos hempty]
    unfold MSHR.promoteDeferredTargets at h ⊢
    split at h
    next hnone =>
      rw [if_pos hnone]
      rfl
    next => simp at h
  next => simp at h

/-! ### What the queue does -/

/-- The search for a new place ends at the register itself. -/
theorem delayPlace_self (hid : id ∈ q.readyList) :
    delayPlace q id = some id := by
  obtain ⟨rest, hrest⟩ := dropWhile_ne_of_mem hid
  unfold delayPlace
  rw [hrest, List.find?_cons_of_pos (by simp)]

/-- So `delay` leaves the register where it is on the list. -/
theorem delay_eq_ok {delayTicks : ℕ} (h : delay q id curTick delayTicks = .ok q') :
    q' = setReadyTime q id (delayed curTick delayTicks) := by
  obtain ⟨_, _, h⟩ := bind_eq_ok.mp h
  obtain ⟨_, hr, h⟩ := bind_eq_ok.mp h
  have hid : id ∈ q.readyList := of_decide_eq_true (require_eq_ok.mp hr)
  rw [← Except.ok.inj h]
  have hplace : delayPlace (setReadyTime q id (delayed curTick delayTicks)) id = some id :=
    delayPlace_self hid
  have hsplice : splice q.readyList (some id) id = q.readyList := if_pos rfl
  rw [hplace, hsplice]
  rfl

/-- The entry just allocated waits for its place on the ready list. -/
theorem pending_allocate {rest : List ℕ} (h : q.WellFormed) (hfree : q.freeList = id :: rest)
    (he : e.mshr.inService = false) :
    Pending { q.setEntry id e with
      freeList := rest
      allocatedList := q.allocatedList ++ [id]
      allocated := q.allocated + 1 } id ∧ id ∉ q.readyList := by
  have hnd := h.nodup
  rw [hfree, List.cons_append, List.nodup_cons, List.mem_append, not_or] at hnd
  have hout : id ∉ q.allocatedList := hnd.1.2
  have hready : id ∉ q.readyList := fun hr => hout ((h.ready id).mp hr).1
  have hother : ∀ i, i ≠ id → (q.setEntry id e).inService i = q.inService i := by
    intro i hi
    rw [inService_setEntry, Function.update_of_ne hi]
  have hself : (q.setEntry id e).inService id = false := by
    rw [inService_setEntry, Function.update_self]
    exact he
  refine ⟨?_, hready⟩
  exact {
    partition := by
      have hpart := h.partition
      rw [hfree] at hpart
      refine List.Perm.trans ?_ hpart
      simp only [List.cons_append, ← List.append_assoc]
      exact List.perm_append_singleton id _
    allocated := by
      have := h.allocated
      simp only [List.length_append, List.length_singleton]
      omega
    ready_nodup := h.ready_nodup
    ready := by
      intro i
      change i ∈ q.readyList ↔
        (i ∈ q.allocatedList ++ [id] ∧ (q.setEntry id e).inService i = false) ∧ i ≠ id
      by_cases hi : i = id
      · subst hi
        simp [hready]
      · rw [hother i hi, h.ready i]
        simp [hi]
    waits := ⟨by simp, hself⟩
    idle := by
      intro i hs
      change (q.setEntry id e).inService i = true at hs
      by_cases hi : i = id
      · subst hi
        simp
      · rw [hother i hi] at hs
        simp [h.idle i hs]
    numInService := by
      change q.numInService = ((q.allocatedList ++ [id]).countP (q.setEntry id e).inService : ℕ)
      rw [List.countP_append, List.countP_singleton, hself, h.numInService]
      simp only [Bool.false_eq_true, if_false, add_zero]
      apply congrArg Nat.cast
      apply List.countP_congr
      intro i hi
      have hne : i ≠ id := fun heq => hout (heq ▸ hi)
      exact iff_of_eq (congrArg (· = true) (hother i hne).symm) }

theorem countP_update {l : List ℕ} {a : ℕ} (hnd : l.Nodup) (ha : a ∈ l) (p : ℕ → Bool) (b : Bool) :
    l.countP (Function.update p a b) + (if p a then 1 else 0) =
      l.countP p + if b then 1 else 0 := by
  have hperm := List.perm_cons_erase ha
  have hrest : (l.erase a).countP (Function.update p a b) = (l.erase a).countP p := by
    apply List.countP_congr
    intro i hi
    have hne : i ≠ a := fun heq => (hnd.mem_erase_iff.mp hi).1 heq
    rw [Function.update_of_ne hne]
  rw [hperm.countP_eq, hperm.countP_eq, List.countP_cons, List.countP_cons, hrest,
    Function.update_self]
  omega

/-- A register that goes back to waiting. -/
theorem pending_markPending (h : q.WellFormed) (hs : q.inService id = true)
    (he : e.mshr.inService = false) :
    Pending { q.setEntry id e with numInService := q.numInService - 1 } id := by
  have hid : id ∈ q.allocatedList := h.idle id hs
  have hnew : (q.setEntry id e).inService = Function.update q.inService id false := by
    rw [inService_setEntry]
    exact congrArg _ he
  have hcount := countP_update (List.nodup_append.mp h.nodup).2.1 hid q.inService false
  rw [hs, if_pos rfl, if_neg Bool.false_ne_true] at hcount
  exact {
    partition := h.partition
    allocated := h.allocated
    ready_nodup := h.ready_nodup
    ready := by
      intro i
      change i ∈ q.readyList ↔
        (i ∈ q.allocatedList ∧ (q.setEntry id e).inService i = false) ∧ i ≠ id
      rw [hnew]
      by_cases hi : i = id
      · subst hi
        simp [h.not_ready hs]
      · rw [Function.update_of_ne hi, h.ready i]
        exact (and_iff_left hi).symm
    waits := ⟨hid, by
      change (q.setEntry id e).inService id = false
      rw [hnew, Function.update_self]⟩
    idle := by
      intro i hsi
      change (q.setEntry id e).inService i = true at hsi
      rw [hnew] at hsi
      by_cases hi : i = id
      · exact hi ▸ hid
      · rw [Function.update_of_ne hi] at hsi
        exact h.idle i hsi
    numInService := by
      change q.numInService - 1 = (q.allocatedList.countP (q.setEntry id e).inService : ℕ)
      rw [hnew, h.numInService]
      omega }

/-- A register that is sent leaves the ready list. -/
theorem wellFormed_markInService (h : q.WellFormed) (hid : id ∈ q.readyList)
    (he : e.mshr.inService = true) :
    WellFormed { q.setEntry id e with
      readyList := q.readyList.erase id
      numInService := q.numInService + 1 } := by
  obtain ⟨halloc, hs⟩ := (h.ready id).mp hid
  have hnew : (q.setEntry id e).inService = Function.update q.inService id true := by
    rw [inService_setEntry]
    exact congrArg _ he
  have hcount := countP_update (List.nodup_append.mp h.nodup).2.1 halloc q.inService true
  rw [hs, if_pos rfl, if_neg Bool.false_ne_true] at hcount
  exact {
    partition := h.partition
    allocated := h.allocated
    ready_nodup := h.ready_nodup.erase id
    ready := by
      intro i
      change i ∈ q.readyList.erase id ↔
        i ∈ q.allocatedList ∧ (q.setEntry id e).inService i = false
      rw [h.ready_nodup.mem_erase_iff, hnew]
      by_cases hi : i = id
      · subst hi
        simp
      · rw [Function.update_of_ne hi, h.ready i]
        exact and_iff_right hi
    idle := by
      intro i hsi
      change (q.setEntry id e).inService i = true at hsi
      rw [hnew] at hsi
      by_cases hi : i = id
      · exact hi ▸ halloc
      · rw [Function.update_of_ne hi] at hsi
        exact h.idle i hsi
    numInService := by
      change q.numInService + 1 = (q.allocatedList.countP (q.setEntry id e).inService : ℕ)
      rw [hnew, h.numInService]
      omega }

/-! ## Runs -/

/-- What an operation makes of the ready time of a register that stays on the ready list fits where
the register is. -/
def InPlace (q : MSHRQueue) : Op → Prop
  | .delay id curTick delayTicks => q.Fits id (delayed curTick delayTicks)
  | .forceDeallocateTarget id curTick =>
      id ∈ q.readyList → (dropTarget (q.entries id).mshr curTick).1 = false →
        q.Fits id (dropTarget (q.entries id).mshr curTick).2.readyTime
  | _ => True

instance (q : MSHRQueue) : DecidablePred (InPlace q)
  | .delay id curTick delayTicks =>
      inferInstanceAs (Decidable (q.Fits id (delayed curTick delayTicks)))
  | .forceDeallocateTarget id _ =>
      inferInstanceAs (Decidable (id ∈ q.readyList → _ → _))
  | .allocate _ _ _ _ _ _ | .markInService _ _ | .markPending _ | .deallocate _ | .change _ _ =>
      .isTrue trivial

theorem allocate_spec {blkAddr blkSize whenReady order : ℕ} {pkt : MissPacket} {allocOnFill : Bool}
    (h : q.WellFormed) (hq : allocate q blkAddr blkSize pkt whenReady order allocOnFill = .ok q') :
    q'.WellFormed ∧ (q.Timed → q'.Timed) := by
  obtain ⟨id, hfree, hq⟩ := bind_eq_ok.mp hq
  obtain ⟨_, _, hq⟩ := bind_eq_ok.mp hq
  obtain ⟨mshr, hmshr, hq⟩ := bind_eq_ok.mp hq
  obtain ⟨rest, hrest⟩ := List.head?_eq_some_iff.mp (orFail_eq_ok.mp hfree)
  rw [hrest] at hq
  obtain ⟨hpending, hout⟩ := pending_allocate h hrest
    (e := ⟨mshr, blkAddr, pkt.req.secure, pkt.req.uncacheable⟩)
    (allocate_inService (mapError_eq_ok.mp hmshr))
  obtain ⟨hwf, htimed⟩ := hpending.addToReadyList hq
  exact ⟨hwf, fun ht => htimed (Timed.setEntry_of_notMem ht hout)⟩

theorem deallocate_spec (h : q.WellFormed) (hq : deallocate q id = .ok q') :
    q'.WellFormed ∧ (q.Timed → q'.Timed) := by
  obtain ⟨freed, hfreed, hq⟩ := bind_eq_ok.mp hq
  obtain ⟨mshr, hmshr, rfl⟩ := onMshr_eq_ok.mp hq
  exact release_spec h (deallocate_inService hmshr) hfreed

theorem markInService_spec {pendingModifiedResp : Bool} (h : q.WellFormed)
    (hq : markInService q id pendingModifiedResp = .ok q') :
    q'.WellFormed ∧ (q.Timed → q'.Timed) := by
  obtain ⟨marked, hmarked, hq⟩ := bind_eq_ok.mp hq
  obtain ⟨sent, hsent, hq⟩ := bind_eq_ok.mp hq
  obtain ⟨mshr, hmshr, rfl⟩ := onMshr_eq_ok.mp hmarked
  obtain ⟨hid, rfl⟩ := eraseReady_eq_ok.mp hsent
  rw [← Except.ok.inj hq]
  refine ⟨wellFormed_markInService h hid (markInService_inService hmshr).2, fun ht => ?_⟩
  have herase : Queue.Timed { q with readyList := q.readyList.erase id } := Timed.erase ht id
  exact Timed.setEntry_of_notMem herase fun hi => (h.ready_nodup.mem_erase_iff.mp hi).1 rfl

theorem markPending_spec (h : q.WellFormed) (hq : markPending q id = .ok q') :
    q'.WellFormed ∧ (q.Timed → q'.Timed) := by
  obtain ⟨_, hs, hq⟩ := bind_eq_ok.mp hq
  have hs := require_eq_ok.mp hs
  obtain ⟨hwf, htimed⟩ := (pending_markPending h hs rfl).addToReadyList hq
  exact ⟨hwf, fun ht => htimed (Timed.setEntry_of_notMem ht (h.not_ready hs))⟩

theorem delay_spec {delayTicks : ℕ} (h : q.WellFormed) (hq : delay q id curTick delayTicks = .ok q')
    :
    q'.WellFormed ∧ (q.Fits id (delayed curTick delayTicks) → q.Timed → q'.Timed) := by
  rw [delay_eq_ok hq]
  exact ⟨h.setEntry rfl, fun hfits ht => ht.setEntry_of_fits h.ready_nodup hfits⟩

theorem forceDeallocateTarget_spec (h : q.WellFormed)
    (hq : forceDeallocateTarget q id curTick = .ok q') :
    q'.WellFormed ∧ (InPlace q (.forceDeallocateTarget id curTick) → q.Timed → q'.Timed) := by
  obtain ⟨_, _, hq⟩ := bind_eq_ok.mp hq
  have hwf : WellFormed (q.setEntry id { q.entries id with
      mshr := (dropTarget (q.entries id).mshr curTick).2 }) :=
    h.setEntry (dropTarget_inService _ curTick)
  dsimp only at hq
  split at hq
  next hlast =>
    obtain ⟨hwf', htimed⟩ := deallocate_spec hwf hq
    exact ⟨hwf', fun _ ht => htimed (ht.setEntry_of_eq (dropTarget_readyTime hlast))⟩
  next hlast =>
    rw [← Except.ok.inj hq]
    refine ⟨hwf, fun hfits ht => ?_⟩
    by_cases hid : id ∈ q.readyList
    · exact ht.setEntry_of_fits h.ready_nodup (hfits hid (by simpa using hlast))
    · exact ht.setEntry_of_notMem hid

theorem change_spec (h : q.WellFormed) (hq : step q (.change id e) = .ok q') :
    q'.WellFormed ∧ (q.Timed → q'.Timed) := by
  obtain ⟨_, hbetween, hq⟩ := bind_eq_ok.mp hq
  have hbetween := require_eq_ok.mp hbetween
  simp only [between, Bool.and_eq_true, Bool.or_eq_true, decide_eq_true_eq] at hbetween
  obtain ⟨⟨_, hservice⟩, htime⟩ := hbetween
  rw [← Except.ok.inj hq]
  refine ⟨h.setEntry hservice, fun ht => ?_⟩
  rcases htime with hs | htime
  · exact ht.setEntry_of_notMem (h.not_ready hs)
  · exact ht.setEntry_of_eq htime

/-- One operation. -/
theorem step_spec {op : Op} (h : q.WellFormed) (hq : step q op = .ok q') :
    q'.WellFormed ∧ (InPlace q op → q.Timed → q'.Timed) := by
  cases op with
  | allocate _ _ _ _ _ _ =>
    obtain ⟨hwf, htimed⟩ := allocate_spec h hq
    exact ⟨hwf, fun _ => htimed⟩
  | markInService _ _ =>
    obtain ⟨hwf, htimed⟩ := markInService_spec h hq
    exact ⟨hwf, fun _ => htimed⟩
  | markPending _ =>
    obtain ⟨hwf, htimed⟩ := markPending_spec h hq
    exact ⟨hwf, fun _ => htimed⟩
  | delay _ _ _ => exact delay_spec h hq
  | forceDeallocateTarget _ _ => exact forceDeallocateTarget_spec h hq
  | deallocate _ =>
    obtain ⟨hwf, htimed⟩ := deallocate_spec h hq
    exact ⟨hwf, fun _ => htimed⟩
  | change _ _ =>
    obtain ⟨hwf, htimed⟩ := change_spec h hq
    exact ⟨hwf, fun _ => htimed⟩

theorem wellFormed_init (numEntries reserve : ℕ) :
    (Queue.init {} numEntries reserve : MSHRQueue).WellFormed where
  partition := by simp [Queue.init]
  allocated := rfl
  ready_nodup := List.nodup_nil
  ready := by simp [Queue.init]
  idle := by
    intro i hs
    change false = true at hs
    cases hs
  numInService := rfl

/-- The lists and the counters are right in every run, whatever ready times change. -/
theorem wellFormed_run (numEntries reserve : ℕ) (ops : List Op)
    (hrun : run step (Queue.init {} numEntries reserve) ops = .ok q) : q.WellFormed := by
  have hall : Admitted (fun _ _ => True) step (Queue.init {} numEntries reserve) ops :=
    admitted_of_forall fun _ _ _ => trivial
  exact run_invariant (fun _ _ _ hwf _ hstep => (step_spec hwf hstep).1)
    (wellFormed_init numEntries reserve) hall hrun

/-- **The miss queue.**  In every run of the queue the free and the allocated list divide the
entries between them, the counters count, and the ready list holds the allocated entries that are
not in service.  If every ready time that changes on the ready list fits where its register is, the
next ready time is the least one of the list, and `getNext` finds a register whenever one is
ready. -/
theorem missQueue_run (numEntries reserve : ℕ) (ops : List Op) {q : MSHRQueue}
    (hops : Admitted InPlace step (Queue.init {} numEntries reserve) ops)
    (hrun : run step (Queue.init {} numEntries reserve) ops = .ok q) :
    q.WellFormed ∧ (q.isFull = false → q.freeList ≠ []) ∧
      (q.readyList = [] → q.nextReadyTime = MaxTick) ∧
      (q.readyList ≠ [] → IsLeast {t | ∃ id ∈ q.readyList, q.readyTime id = t} q.nextReadyTime) ∧
      ∀ curTick, ∀ id ∈ q.readyList, q.readyTime id ≤ curTick →
        ∃ front ∈ q.readyList, q.getNext curTick = some front ∧
          q.readyTime front ≤ curTick := by
  have hwf := wellFormed_run numEntries reserve ops hrun
  have hinv : q.WellFormed ∧ q.Timed := by
    refine run_invariant (P := fun q => q.WellFormed ∧ q.Timed) ?_ ?_ hops hrun
    · rintro q op q' ⟨hwf, ht⟩ hfits hstep
      obtain ⟨hwf', htimed⟩ := step_spec hwf hstep
      exact ⟨hwf', htimed hfits ht⟩
    · exact ⟨wellFormed_init numEntries reserve, List.Pairwise.nil⟩
  have ht := hinv.2
  refine ⟨hwf, hwf.freeList_ne_nil, ?_, ht.nextReadyTime, fun curTick id hid => ht.getNext hid⟩
  intro hnil
  unfold Queue.nextReadyTime
  rw [hnil]
  rfl

/-- Two misses, ready at 10 and at `second`, of which `id` is delayed by 100 ticks at 10. -/
def twoMisses (second id : ℕ) : List Op :=
  [.allocate 0 64 { cmd := .ReadReq } 10 0 true, .allocate 64 64 { cmd := .ReadReq } second 1 true,
    .delay id 10 100]

/-- Of two misses that are ready at 10 the second one is delayed. -/
theorem missQueue_run_two :
    ∃ q, run step (Queue.init {} 2 0) (twoMisses 10 1) = .ok q ∧
      q.WellFormed ∧ ∃ front ∈ q.readyList, q.getNext 10 = some front ∧ q.readyTime front ≤ 10 := by
  refine ⟨_, rfl, ?_⟩
  have hall := missQueue_run 2 0 (twoMisses 10 1) (by decide) rfl
  exact ⟨hall.1, hall.2.2.2.2 10 0 (by decide) (by decide)⟩

/-- **A delayed miss hides the others.**  The first of two misses, ready at 10 and at 20, is delayed
by 100 ticks at 10 and stays at the front of the list, so the next ready time is 110 although the
second miss is ready at 20, and at 20 `getNext` finds nothing. -/
theorem delay_hides_ready :
    ∃ q, run step (Queue.init {} 2 0) (twoMisses 20 0) = .ok q ∧
      1 ∈ q.readyList ∧ q.readyTime 1 = 20 ∧ q.nextReadyTime = 110 ∧ q.getNext 20 = none :=
  ⟨_, rfl, by decide, by decide, by decide, by decide⟩

end MSHRQueue

end Gem5.Mem
