/-
# Checkpoints of a virtqueue

`serialize` saves the address and the avail index of a virtqueue, not the device's copy of
the used ring, which a later `produceDescriptor` writes back whole.  This module compares
the runs from a world and from the same world with a restored queue, and finds exactly
when they agree: when the copy holds zeros in every cell but the one written next.
-/
import Gem5.VirtQueueFifo

namespace Gem5.Virtio

open Runs RingIndex

/-- A queue that was constructed afresh and restored from a checkpoint of `q`. -/
def VirtQueue.restored (q : VirtQueue) : VirtQueue :=
  (VirtQueue.create q.size).unserialize q.serialize

/-- The world with the restored queue; guest memory is unchanged. -/
def World.restored (w : World) : World := { w with queue := w.queue.restored }

/-- **What a transparent checkpoint promises**: whatever the guest and the device do next, the
run with the restored queue consumes the same chains and leaves the same memory. -/
def Transparent (w : World) : Prop :=
  ∀ as, Admitted Allowed step w as → ∃ v v', run step w as = .ok v ∧
    run step w.restored as = .ok v' ∧ v.consumed = v'.consumed ∧ v.mem = v'.mem

/-- The device's copy of the used ring is zero except for the cell that is written next. -/
def OthersZero (w : World) : Prop :=
  ∀ i < w.queue.size, i ≠ w.mem.used.header.index % w.queue.size →
    w.queue.used.ring[i]? = some ⟨0, 0⟩

instance (w : World) : Decidable (OthersZero w) :=
  inferInstanceAs (Decidable (∀ i < w.queue.size, _ → _))

variable {w w' : World}

/-- The restored queue has the indices of the old one. -/
theorem Indexed.restored (h : Indexed w) : Indexed w.restored :=
  { h with
    availBase := by
      have hpos := h.size_pos
      simp only [World.restored, VirtQueue.restored, VirtQueue.unserialize, VirtQueue.setAddress,
        VirtQueue.create]
      omega
    usedBase := by
      have hpos := h.size_pos
      simp only [World.restored, VirtQueue.restored, VirtQueue.unserialize, VirtQueue.setAddress,
        VirtQueue.create, ALIGN_SIZE]
      omega
    usedLength := List.length_replicate }

/-! ## Two worlds side by side -/

/-- Two worlds that differ in the device's rings only. -/
structure Twin (w w' : World) : Prop where
  left : Indexed w
  right : Indexed w'
  size : w.queue.size = w'.queue.size
  mem : w.mem = w'.mem
  published : w.published = w'.published
  consumed : w.consumed = w'.consumed
  pending : w.pending = w'.pending
  produced : w.produced = w'.produced
  guestRead : w.guestRead = w'.guestRead

theorem Indexed.twin_restored (h : Indexed w) : Twin w w.restored where
  left := h
  right := h.restored
  size := rfl
  mem := rfl
  published := rfl
  consumed := rfl
  pending := rfl
  produced := rfl
  guestRead := rfl

/-- What the twin may do is what the world may do. -/
theorem Twin.allowed (h : Twin w w') {a : Action} (hadm : Allowed w a) : Allowed w' a := by
  cases a with
  | publish head =>
    obtain ⟨hhead, hroom⟩ := hadm
    refine ⟨h.size ▸ hhead, ?_⟩
    rw [← h.published, ← h.guestRead, ← h.size]
    exact hroom
  | consume => trivial
  | produce head len =>
    show head ∈ w'.pending
    rw [← h.pending]
    exact hadm
  | readUsed =>
    show w'.guestRead % 65536 ≠ w'.mem.used.header.index
    rw [← h.guestRead, ← h.mem]
    exact hadm

/-- The next chain is the same for both. -/
theorem Twin.consume (h : Twin w w') : Twin w.afterConsume w'.afterConsume where
  left := h.left.consume
  right := h.right.consume
  size := h.size
  mem := h.mem
  published := h.published
  consumed := by simp only [World.afterConsume, h.consumed, h.published]
  pending := by simp only [World.afterConsume, h.consumed, h.published, h.pending]
  produced := h.produced
  guestRead := h.guestRead

/-- Producing keeps the worlds twins when it leaves the same ring. -/
theorem Twin.produce (h : Twin w w') {head len : ℕ} (hadm : Allowed w (.produce head len))
    (hring : w.producedRing ⟨head, len⟩ = w'.producedRing ⟨head, len⟩) :
    Twin (w.afterProduce head len) (w'.afterProduce head len) where
  left := h.left.produce hadm
  right := h.right.produce (h.allowed hadm)
  size := h.size
  mem := by
    simp only [World.afterProduce, World.producedHeader, hring, h.mem, h.produced]
  published := h.published
  consumed := h.consumed
  pending := by simp only [World.afterProduce, h.pending]
  produced := by simp only [World.afterProduce, h.produced]
  guestRead := h.guestRead

/-- Actions that leave the used ring alone. -/
def Quiet : Action → Prop
  | .produce _ _ => False
  | _ => True

/-- The worlds agree on the device's used ring, and on how many elements it has got. -/
def SameUsed (w v : World) : Prop :=
  v.queue.size = w.queue.size ∧ v.queue.used.ring = w.queue.used.ring ∧ v.produced = w.produced

/-- Without a production, the twins take the same steps and keep their own used rings. -/
theorem Twin.quiet_step (h : Twin w w') {a : Action} (hadm : Allowed w a) (hq : Quiet a) :
    ∃ v v', step w a = .ok v ∧ step w' a = .ok v' ∧ Twin v v' ∧ SameUsed w v ∧
      SameUsed w' v' := by
  cases a with
  | publish head =>
    refine ⟨_, _, rfl, rfl, ?_, ⟨rfl, rfl, rfl⟩, rfl, rfl, rfl⟩
    exact { h with
      left := h.left.publish hadm
      right := h.right.publish (h.allowed hadm)
      mem := by simp only [h.mem, h.size]
      published := by simp only [h.published] }
  | consume =>
    exact ⟨_, _, h.left.step_consume, h.right.step_consume, h.consume, ⟨rfl, rfl, rfl⟩,
      rfl, rfl, rfl⟩
  | produce head len => exact absurd hq id
  | readUsed =>
    refine ⟨_, _, rfl, rfl, ?_, ⟨rfl, rfl, rfl⟩, rfl, rfl, rfl⟩
    exact { h with
      left := h.left.readUsed hadm
      right := h.right.readUsed (h.allowed hadm)
      guestRead := congrArg (· + 1) h.guestRead }

/-! ## Zero cells are enough -/

/-- Both devices hold the same elements, the cell that is written next aside. -/
def AgreeOthers (w w' : World) : Prop :=
  ∀ i, i ≠ w.produced.length % w.queue.size → w.queue.used.ring[i]? = w'.queue.used.ring[i]?

theorem AgreeOthers.of_same (h : AgreeOthers w w') {v v' : World} (hsame : SameUsed w v)
    (hsame' : SameUsed w' v') : AgreeOthers v v' := by
  obtain ⟨hsize, hring, hprod⟩ := hsame
  obtain ⟨-, hring', -⟩ := hsame'
  intro i hi
  rw [hring, hring']
  rw [hsize, hprod] at hi
  exact h i hi

/-- Rings that agree but for one cell are equal once it is written. -/
theorem Twin.producedRing_eq (h : Twin w w') (hagree : AgreeOthers w w') (e : UsedElem) :
    w.producedRing e = w'.producedRing e := by
  refine List.ext_getElem? fun i => ?_
  rw [World.producedRing, World.producedRing, ← h.produced, ← h.size]
  by_cases hi : w.produced.length % w.queue.size = i
  · rw [hi, List.getElem?_set, List.getElem?_set, h.left.usedLength, h.right.usedLength, h.size,
      if_pos rfl, if_pos rfl]
  · rw [List.getElem?_set_ne hi, List.getElem?_set_ne hi]
    exact hagree i (Ne.symm hi)

/-- **Twins with the same elements** stay so, whatever happens. -/
theorem Twin.agree_step (h : Twin w w') (hagree : AgreeOthers w w') {a : Action}
    (hadm : Allowed w a) :
    ∃ v v', step w a = .ok v ∧ step w' a = .ok v' ∧ Twin v v' ∧ AgreeOthers v v' := by
  have hquiet : Quiet a → ∃ v v', step w a = .ok v ∧ step w' a = .ok v' ∧ Twin v v' ∧
      AgreeOthers v v' := fun hq => by
    obtain ⟨v, v', hv, hv', htwin, hsame, hsame'⟩ := h.quiet_step hadm hq
    exact ⟨v, v', hv, hv', htwin, hagree.of_same hsame hsame'⟩
  cases a with
  | publish head => exact hquiet trivial
  | consume => exact hquiet trivial
  | produce head len =>
    have hring := h.producedRing_eq hagree ⟨head, len⟩
    exact ⟨_, _, h.left.step_produce head len, h.right.step_produce head len,
      h.produce hadm hring, fun i _ => congrArg (·[i]?) hring⟩
  | readUsed => exact hquiet trivial

theorem restored_ring (w : World) :
    w.restored.queue.used.ring = List.replicate w.queue.size ⟨0, 0⟩ := rfl

/-- A restored device agrees with one that holds zeros. -/
theorem Indexed.agree_of_zero (h : Indexed w) (hzero : OthersZero w) :
    AgreeOthers w w.restored := by
  intro i hi
  rw [restored_ring, List.getElem?_replicate]
  by_cases hlt : i < w.queue.size
  · rw [if_pos hlt]
    refine hzero i hlt ?_
    rw [h.usedIndex, wrapped_mod h.size_dvd]
    exact hi
  · rw [if_neg hlt]
    exact List.getElem?_eq_none (h.usedLength ▸ not_lt.mp hlt)

/-! ## Other cells are lost -/

/-- The device can go on, without a production, to a state in which it may produce. -/
def Productive (w : World) : Prop :=
  ∃ as, (∀ a ∈ as, Quiet a) ∧ Admitted Allowed step w as ∧
    ∃ v, run step w as = .ok v ∧ v.pending ≠ []

theorem Productive.cons {a : Action} (hq : Quiet a) (hadm : Allowed w a) {v : World}
    (hstep : step w a = .ok v) (h : Productive v) : Productive w := by
  obtain ⟨as, hquiet, has, u, hrun, hpending⟩ := h
  refine ⟨a :: as, List.forall_mem_cons.mpr ⟨hq, hquiet⟩, ⟨hadm, fun t ht => ?_⟩, u, ?_, hpending⟩
  · rw [hstep, Except.ok.injEq] at ht
    exact ht ▸ has
  · rw [run_cons_ok as hstep]
    exact hrun

/-- A chain that was not consumed can be consumed and then produced. -/
theorem Indexed.productive_of_waiting (h : Indexed w)
    (hlt : w.consumed.length < w.published.length) : Productive w := by
  refine Productive.cons (a := .consume) trivial trivial h.step_consume
    ⟨[], fun _ ha => absurd ha List.not_mem_nil, trivial, _, rfl, ?_⟩
  simp only [World.afterConsume, List.getElem?_eq_getElem hlt, Option.toList_some]
  exact List.append_ne_nil_of_right_ne_nil _ (List.cons_ne_nil _ _)

/-- While the guest has room, it can publish a chain. -/
theorem Indexed.productive_of_room (h : Indexed w)
    (hroom : w.published.length < w.guestRead + w.queue.size) : Productive w := by
  have hadm : Allowed w (.publish 0) := ⟨h.size_pos, hroom⟩
  refine Productive.cons (a := .publish 0) trivial hadm rfl
    ((h.publish hadm).productive_of_waiting ?_)
  show w.consumed.length < (w.published ++ [0]).length
  rw [List.length_append, List.length_singleton]
  exact Nat.lt_succ_of_le h.consumed_le

/-- **The device can always come to produce again.** -/
theorem Indexed.productive (h : Indexed w) : Productive w := by
  by_cases hpending : w.pending = []
  · by_cases hlt : w.consumed.length < w.published.length
    · exact h.productive_of_waiting hlt
    by_cases hroom : w.published.length < w.guestRead + w.queue.size
    · exact h.productive_of_room hroom
    -- every chain came back and fills the used ring: the guest has elements to read
    have hcounts := h.counts
    have hcons := h.consumed_le
    have hout := h.outstanding
    have hpos := h.size_pos
    rw [hpending, List.length_nil] at hcounts
    have hadm : Allowed w .readUsed := h.unread_iff.mpr (by omega)
    refine Productive.cons (a := .readUsed) trivial hadm rfl
      ((h.readUsed hadm).productive_of_room ?_)
    show w.published.length < w.guestRead + 1 + w.queue.size
    omega
  · exact ⟨[], fun _ ha => absurd ha List.not_mem_nil, trivial, w, rfl, hpending⟩

theorem SameUsed.trans {u v : World} (h : SameUsed w u) (h' : SameUsed u v) : SameUsed w v :=
  ⟨h'.1.trans h.1, h'.2.1.trans h.2.1, h'.2.2.trans h.2.2⟩

/-- A run without productions keeps both used rings. -/
theorem Twin.quiet_run (h : Twin w w') {as : List Action} (hquiet : ∀ a ∈ as, Quiet a)
    (hadm : Admitted Allowed step w as) :
    ∃ v v', run step w as = .ok v ∧ run step w' as = .ok v' ∧ Twin v v' ∧ SameUsed w v ∧
      SameUsed w' v' := by
  refine run_lockstep (R := fun v v' => Twin v v' ∧ SameUsed w v ∧ SameUsed w' v')
    (fun u u' a hR ha => ?_) ⟨h, ⟨rfl, rfl, rfl⟩, rfl, rfl, rfl⟩ (hadm.and_forall hquiet)
  obtain ⟨htwin, hsame, hsame'⟩ := hR
  obtain ⟨v, v', hv, hv', htwin', hnext, hnext'⟩ := htwin.quiet_step ha.1 ha.2
  exact ⟨v, v', hv, hv', htwin', hsame.trans hnext, hsame'.trans hnext'⟩

/-- If the first production after the checkpoint leaves the same memory, the other cells of
the device's used ring are zero. -/
theorem Indexed.zero_of_transparent (h : Indexed w) (htr : Transparent w) : OthersZero w := by
  obtain ⟨as, hquiet, hadm, u, hrun, hpending⟩ := h.productive
  obtain ⟨v, v', hv, hv', htwin, hsame, hsame'⟩ := h.twin_restored.quiet_run hquiet hadm
  obtain rfl : u = v := Except.ok.inj (hrun.symm.trans hv)
  obtain ⟨head, hhead⟩ := List.exists_mem_of_ne_nil _ hpending
  have hnext := htwin.left.step_produce head 0
  have hnext' := htwin.right.step_produce head 0
  obtain ⟨x, x', hx, hx', -, hmem⟩ := htr (as ++ [.produce head 0]) <| by
    refine hadm.append fun s hs => ?_
    rw [hv, Except.ok.injEq] at hs
    exact hs ▸ ⟨hhead, fun _ _ => trivial⟩
  rw [run_append_ok _ hv, run_cons_ok _ hnext, run_nil, Except.ok.injEq] at hx
  rw [run_append_ok _ hv', run_cons_ok _ hnext', run_nil, Except.ok.injEq] at hx'
  subst hx hx'
  have hring : u.producedRing ⟨head, 0⟩ = v'.producedRing ⟨head, 0⟩ :=
    congrArg (fun m : GuestMemory => m.used.ring) hmem
  rw [World.producedRing, World.producedRing, ← htwin.produced, ← htwin.size, hsame.1,
    hsame.2.2, hsame.2.1, hsame'.2.1, restored_ring] at hring
  intro i hlt hi
  rw [h.usedIndex, wrapped_mod h.size_dvd] at hi
  have hcell := congrArg (·[i]?) hring
  rw [List.getElem?_set_ne hi.symm, List.getElem?_set_ne hi.symm, List.getElem?_replicate,
    if_pos hlt] at hcell
  exact hcell

/-! ## The result -/

/-- The states of a queue that was set up with a power of two of entries. -/
theorem indexed_of_reached {k : ℕ} (hk : k < 16) {address availFlags usedFlags : ℕ}
    {availRing : Fin (2 ^ k) → ℕ} {usedRing : Fin (2 ^ k) → UsedElem}
    (h : Reached Allowed step (start (2 ^ k) address availFlags usedFlags availRing usedRing) w) :
    Indexed w := by
  have hinv : Inv w := h.invariant (fun s a s' hs hadm hstep => by
    obtain ⟨t, ht, hInv⟩ := hs.step_total hadm
    rw [hstep, Except.ok.injEq] at ht
    exact ht ▸ hInv) (start_inv hk address availFlags usedFlags availRing usedRing)
  exact hinv.toIndexed

/-- **A checkpoint of a virtqueue is transparent exactly when the device's copy of the used
ring is zero**, the cell that is written next aside. -/
theorem checkpoint_transparent_iff {k : ℕ} (hk : k < 16) (address availFlags usedFlags : ℕ)
    (availRing : Fin (2 ^ k) → ℕ) (usedRing : Fin (2 ^ k) → UsedElem) (w : World)
    (hw : Reached Allowed step
      (start (2 ^ k) address availFlags usedFlags availRing usedRing) w) :
    Transparent w ↔ OthersZero w := by
  have h := indexed_of_reached hk hw
  refine ⟨h.zero_of_transparent, fun hzero as hadm => ?_⟩
  have hboth : ∃ v v', run step w as = .ok v ∧ run step w.restored as = .ok v' ∧ Twin v v' ∧
      AgreeOthers v v' := by
    refine run_lockstep (R := fun v v' => Twin v v' ∧ AgreeOthers v v') (fun v v' a hR ha => ?_)
      ⟨h.twin_restored, h.agree_of_zero hzero⟩ hadm
    exact hR.1.agree_step hR.2 ha
  obtain ⟨v, v', hv, hv', htwin, -⟩ := hboth
  exact ⟨v, v', hv, hv', htwin.consumed, htwin.mem⟩

/-- A queue of two entries. -/
def small : World := start (2 ^ 1) 4096 0 0 (fun _ => 0) (fun _ => ⟨0, 0⟩)

/-- Two chains are consumed, and the completion of the first is not read yet. -/
def unreadCompletion : List Action :=
  [.publish 0, .publish 1, .consume, .consume, .produce 0 7]

theorem checkpoint_transparent_unread :
    ∃ w, run step small unreadCompletion = .ok w ∧ (Transparent w ↔ OthersZero w) ∧
      ¬ OthersZero w := by
  obtain ⟨w, hrun, hzero⟩ : ∃ w, run step small unreadCompletion = .ok w ∧ ¬ OthersZero w := by
    decide +kernel
  exact ⟨w, hrun, checkpoint_transparent_iff (k := 1) (by decide) 4096 0 0 (fun _ => 0)
    (fun _ => ⟨0, 0⟩) w ⟨unreadCompletion, by decide +kernel, hrun⟩, hzero⟩

/-- The next production after a checkpoint wipes the length of the unread completion. -/
theorem checkpoint_loses_completion :
    ∃ w, Reached Allowed step small w ∧ w.guestRead < w.produced.length ∧
      (run step w [.produce 1 5]).map (·.mem.used.ring) = .ok [⟨0, 7⟩, ⟨1, 5⟩] ∧
      (run step w.restored [.produce 1 5]).map (·.mem.used.ring) = .ok [⟨0, 0⟩, ⟨1, 5⟩] ∧
      ¬ Transparent w := by
  obtain ⟨w, hrun, hlive, hunread, hleft, hright⟩ :
      ∃ w, run step small unreadCompletion = .ok w ∧ Admitted Allowed step w [.produce 1 5] ∧
        w.guestRead < w.produced.length ∧
        (run step w [.produce 1 5]).map (·.mem.used.ring) = .ok [⟨0, 7⟩, ⟨1, 5⟩] ∧
        (run step w.restored [.produce 1 5]).map (·.mem.used.ring) = .ok [⟨0, 0⟩, ⟨1, 5⟩] := by
    decide +kernel
  refine ⟨w, ⟨unreadCompletion, by decide +kernel, hrun⟩, hunread, hleft, hright, fun htr => ?_⟩
  obtain ⟨v, v', hv, hv', -, hmem⟩ := htr _ hlive
  rw [hv, Except.map, Except.ok.injEq] at hleft
  rw [hv', Except.map, ← hmem, hleft] at hright
  exact absurd hright (by decide)

end Gem5.Virtio
