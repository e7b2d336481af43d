/-
# Virtqueues are first-in first-out across index wrap

What each operation of a virtqueue does under the invariant `Inv`, which ties the wrapped
indices and the ring cells to the history of publications, consumptions and productions,
and what follows for every run of a guest that never has more chains outstanding than the
queue has entries.
-/
import Gem5.VirtQueue

namespace Gem5.Virtio

open Runs RingIndex

/-! ## The start -/

/-- A queue that was just set up satisfies the invariant. -/
theorem start_inv {k : ℕ} (hk : k < 16) (address availFlags usedFlags : ℕ)
    (availRing : Fin (2 ^ k) → ℕ) (usedRing : Fin (2 ^ k) → UsedElem) :
    Inv (start (2 ^ k) address availFlags usedFlags availRing usedRing) where
  size_pos := Nat.two_pow_pos k
  size_dvd := Nat.pow_dvd_pow 2 hk.le
  size_lt := Nat.pow_lt_pow_right one_lt_two hk
  availBase := by
    have hpos := Nat.two_pow_pos k
    simp only [start, VirtQueue.setAddress, VirtQueue.create]
    omega
  usedBase := by
    have hpos := Nat.two_pow_pos k
    simp only [start, VirtQueue.setAddress, VirtQueue.create, ALIGN_SIZE]
    omega
  usedLength := List.length_replicate
  memAvailLength := List.length_ofFn
  memUsedLength := List.length_ofFn
  lastAvail := rfl
  availIndex := rfl
  usedIndex := rfl
  heads := fun _ h => absurd h List.not_mem_nil
  consumed := List.prefix_rfl
  counts := rfl
  read := le_rfl
  outstanding := Nat.zero_le _
  avail := holds_of_le le_rfl
  deviceUsed := holds_of_le le_rfl
  guestUsed := holds_of_le le_rfl

/-! ## Counting -/

variable {w : World}

theorem next16_mod (n : ℕ) : next16 (n % 65536) = (n + 1) % 65536 := Nat.mod_add_mod n 65536 1

theorem Indexed.consumed_le (h : Indexed w) : w.consumed.length ≤ w.published.length :=
  h.consumed.length_le

theorem Indexed.produced_le (h : Indexed w) : w.produced.length ≤ w.consumed.length := by
  have := h.counts
  omega

/-- The index the device compares is the index in the ring exactly when nothing is left. -/
theorem Indexed.lastAvail_eq_iff (h : Indexed w) :
    w.queue.lastAvail = w.mem.avail.header.index ↔ w.consumed.length = w.published.length := by
  rw [h.lastAvail, h.availIndex]
  have hread := h.read
  have hprod := h.produced_le
  have hout := h.outstanding
  have hlt := h.size_lt
  exact wrapped_eq_iff h.consumed_le (by omega)

/-! ## The operations -/

/-- The queue after `consumeDescriptor`: the avail ring as it is in memory, and the number of
chains consumed in all. -/
def World.consumedQueue (w : World) (consumed : ℕ) : VirtQueue :=
  { w.queue with
    avail := ⟨w.mem.avail.header, w.mem.avail.ring, w.queue.avail.base⟩
    lastAvail := consumed % 65536 }

theorem read_ok {T : Type} {r : VirtRing T} (hbase : r.base ≠ 0) (g : GuestRing T) :
    r.read g = .ok ⟨g.header, g.ring, r.base⟩ := by
  simp only [VirtRing.read, VirtRing.readHeader, require, hbase, ne_eq, not_false_eq_true,
    decide_true, if_true]
  rfl

theorem readHeader_ok {T : Type} {r : VirtRing T} (hbase : r.base ≠ 0) (g : GuestRing T) :
    r.readHeader g = .ok ⟨g.header, r.ring, r.base⟩ := by
  simp only [VirtRing.readHeader, require, hbase, ne_eq, not_false_eq_true, decide_true, if_true]
  rfl

theorem write_ok {T : Type} {header : Header} {ring : List T} {base : ℕ} (hbase : base ≠ 0) :
    VirtRing.write ⟨header, ring, base⟩ = .ok ⟨header, ring⟩ := by
  simp only [VirtRing.write, require, hbase, ne_eq, not_false_eq_true, decide_true, if_true]
  rfl

/-- **`consumeDescriptor`** returns the first chain that was not consumed, or nothing when
there is none. -/
theorem Indexed.consumeDescriptor_eq (h : Indexed w) :
    w.queue.consumeDescriptor w.mem =
      .ok (w.consumedQueue (w.consumed ++ w.published[w.consumed.length]?.toList).length,
        w.published[w.consumed.length]?) := by
  rw [VirtQueue.consumeDescriptor, read_ok h.availBase]
  change (if w.queue.lastAvail = w.mem.avail.header.index then _ else _) = _
  by_cases hall : w.consumed.length = w.published.length
  · have hnone : w.published[w.consumed.length]? = none := List.getElem?_eq_none hall.ge
    rw [if_pos (h.lastAvail_eq_iff.mpr hall), hnone, Option.toList_none, List.append_nil,
      World.consumedQueue, ← h.lastAvail]
    rfl
  · have hlt : w.consumed.length < w.published.length := lt_of_le_of_ne h.consumed_le hall
    obtain ⟨head, hhead⟩ : ∃ head, w.published[w.consumed.length]? = some head :=
      ⟨_, List.getElem?_eq_getElem hlt⟩
    have hcell : w.mem.avail.ring[w.queue.lastAvail % w.queue.used.ring.length]? = some head := by
      rw [h.usedLength, h.lastAvail, wrapped_mod h.size_dvd, ← h.memAvailLength,
        h.avail _ le_rfl hlt, hhead]
    rw [if_neg fun heq => hall (h.lastAvail_eq_iff.mp heq), hhead, Option.toList_some,
      List.length_append, List.length_singleton]
    refine bind_eq_ok.mpr ⟨head, orFail_eq_ok.mpr hcell, ?_⟩
    refine bind_eq_ok.mpr ⟨(), require_ok ?_, ?_⟩
    · exact decide_eq_true (h.heads head (List.mem_of_getElem? hhead))
    · rw [h.lastAvail, next16_mod]
      rfl

/-- The used ring of the device after `produceDescriptor`. -/
def World.producedRing (w : World) (e : UsedElem) : List UsedElem :=
  w.queue.used.ring.set (w.produced.length % w.queue.size) e

/-- The index of the used ring after `produceDescriptor`. -/
def World.producedHeader (w : World) : Header :=
  { w.mem.used.header with index := (w.produced.length + 1) % 65536 }

/-- **`produceDescriptor`** writes the element behind the last one, in both copies. -/
theorem Indexed.produceDescriptor_eq (h : Indexed w) (head len : ℕ) :
    w.queue.produceDescriptor w.mem head len =
      .ok ({ w.queue with
          used := ⟨w.producedHeader, w.producedRing ⟨head, len⟩, w.queue.used.base⟩ },
        { w.mem with used := ⟨w.producedHeader, w.producedRing ⟨head, len⟩⟩ }) := by
  rw [VirtQueue.produceDescriptor, readHeader_ok h.usedBase]
  refine bind_eq_ok.mpr ⟨_, rfl, ?_⟩
  simp only [h.usedIndex, h.usedLength, wrapped_mod h.size_dvd, next16_mod]
  exact bind_eq_ok.mpr ⟨_, write_ok h.usedBase, rfl⟩

/-! ## The steps -/

/-- The guest publishes a chain. -/
theorem Indexed.publish (h : Indexed w) {head : ℕ} (hadm : Allowed w (.publish head)) :
    Indexed { w with
      mem := w.mem.publish w.queue.size head
      published := w.published ++ [head] } := by
  obtain ⟨hhead, hroom⟩ := hadm
  have hcell : w.mem.avail.header.index % w.queue.size =
      w.published.length % w.mem.avail.ring.length := by
    rw [h.availIndex, h.memAvailLength, wrapped_mod h.size_dvd]
  have hread := h.read
  have hprod := h.produced_le
  exact { h with
    memAvailLength := by
      simp only [GuestMemory.publish, List.length_set]
      exact h.memAvailLength
    availIndex := by
      simp only [GuestMemory.publish, List.length_append, List.length_singleton, h.availIndex,
        next16_mod]
    heads := fun x hx => (List.mem_append.mp hx).elim (h.heads x) fun hx =>
      (List.mem_singleton.mp hx).symm ▸ hhead
    consumed := h.consumed.trans (List.prefix_append _ _)
    outstanding := by
      simp only [List.length_append, List.length_singleton]
      omega
    avail := by
      simp only [GuestMemory.publish, hcell]
      refine h.avail.push head ?_
      rw [h.memAvailLength]
      omega }

/-- The world after the device consumed the next chain. -/
def World.afterConsume (w : World) : World :=
  let next := w.published[w.consumed.length]?.toList
  { w with
    queue := w.consumedQueue (w.consumed ++ next).length
    consumed := w.consumed ++ next
    pending := w.pending ++ next }

/-- The device consumes the next chain. -/
theorem Indexed.consume (h : Indexed w) : Indexed w.afterConsume :=
  { h with
    lastAvail := rfl
    consumed := prefix_append_next h.consumed
    counts := by
      have := h.counts
      simp only [World.afterConsume, List.length_append]
      omega
    avail := h.avail.mono (List.length_append ▸ Nat.le_add_right _ _) }

/-- The world after the device produced a chain. -/
def World.afterProduce (w : World) (head len : ℕ) : World :=
  let ring := w.producedRing ⟨head, len⟩
  { w with
    queue := { w.queue with used := ⟨w.producedHeader, ring, w.queue.used.base⟩ }
    mem := { w.mem with used := ⟨w.producedHeader, ring⟩ }
    pending := w.pending.erase head
    produced := w.produced ++ [⟨head, len⟩] }

theorem Indexed.producedRing_length (h : Indexed w) (e : UsedElem) :
    (w.producedRing e).length = w.queue.size := by
  rw [World.producedRing, List.length_set]
  exact h.usedLength

/-- The device produces a chain it consumed. -/
theorem Indexed.produce (h : Indexed w) {head len : ℕ} (hadm : Allowed w (.produce head len)) :
    Indexed (w.afterProduce head len) := by
  have hpending : head ∈ w.pending := hadm
  have hpos := List.length_pos_of_mem hpending
  have herase := List.length_erase_of_mem hpending
  have hcounts := h.counts
  have hread := h.read
  exact { h with
    usedLength := h.producedRing_length _
    memUsedLength := h.producedRing_length _
    usedIndex := by
      simp only [World.afterProduce, World.producedHeader, List.length_append,
        List.length_singleton]
    counts := by
      simp only [World.afterProduce, List.length_append, List.length_singleton]
      omega
    read := by
      simp only [World.afterProduce, List.length_append, List.length_singleton]
      omega }

/-- The guest sees an unread element exactly when there is one. -/
theorem Indexed.unread_iff (h : Indexed w) :
    w.guestRead % 65536 ≠ w.mem.used.header.index ↔ w.guestRead < w.produced.length := by
  have hread := h.read
  have hprod := h.produced_le
  have hcons := h.consumed_le
  have hout := h.outstanding
  have hlt := h.size_lt
  rw [h.usedIndex, ne_eq, wrapped_eq_iff hread (by omega)]
  omega

/-- The guest reads an element. -/
theorem Indexed.readUsed (h : Indexed w) (hadm : Allowed w .readUsed) :
    Indexed { w with guestRead := w.guestRead + 1 } := by
  have hunread := h.unread_iff.mp hadm
  have hout := h.outstanding
  exact { h with
    read := hunread
    outstanding := by
      show w.published.length ≤ w.guestRead + 1 + w.queue.size
      omega }

theorem Indexed.step_consume (h : Indexed w) : step w .consume = .ok w.afterConsume :=
  bind_eq_ok.mpr ⟨_, h.consumeDescriptor_eq, rfl⟩

theorem Indexed.step_produce (h : Indexed w) (head len : ℕ) :
    step w (.produce head len) = .ok (w.afterProduce head len) :=
  bind_eq_ok.mpr ⟨_, h.produceDescriptor_eq head len, rfl⟩

/-- The new element joins the unread ones in the device's used ring. -/
theorem Inv.producedRing_holds (h : Inv w) {head len : ℕ} (hadm : Allowed w (.produce head len)) :
    Holds (w.producedRing ⟨head, len⟩) (w.produced ++ [⟨head, len⟩]) w.guestRead := by
  have hpending : head ∈ w.pending := hadm
  have hpos := List.length_pos_of_mem hpending
  have hcounts := h.counts
  have hcons := h.consumed_le
  have hout := h.outstanding
  rw [World.producedRing, ← h.usedLength]
  refine h.deviceUsed.push ⟨head, len⟩ ?_
  rw [h.usedLength]
  omega

/-- Every allowed step succeeds and keeps the invariant. -/
theorem Inv.step_total (h : Inv w) {a : Action} (hadm : Allowed w a) :
    ∃ w', step w a = .ok w' ∧ Inv w' := by
  cases a with
  | publish head =>
    exact ⟨_, rfl, { h.toIndexed.publish hadm with
      deviceUsed := h.deviceUsed
      guestUsed := h.guestUsed }⟩
  | consume =>
    exact ⟨_, h.step_consume, { h.toIndexed.consume with
      deviceUsed := h.deviceUsed
      guestUsed := h.guestUsed }⟩
  | produce head len =>
    exact ⟨_, h.step_produce head len, { h.toIndexed.produce hadm with
      deviceUsed := h.producedRing_holds hadm
      guestUsed := h.producedRing_holds hadm }⟩
  | readUsed =>
    exact ⟨_, rfl, { h.toIndexed.readUsed hadm with
      deviceUsed := h.deviceUsed.mono (Nat.le_succ _)
      guestUsed := h.guestUsed.mono (Nat.le_succ _) }⟩

/-! ## Runs -/

/-- **A virtqueue loses, repeats and reorders nothing.**  Whatever the queue size, and however
long the guest and the device go on: the run succeeds, the chains consumed are the first
chains published, the next call of `consumeDescriptor` returns the next one, and the used
ring in memory holds the elements produced that the guest has not read. -/
theorem virtqueue_lossless {k : ℕ} (hk : k < 16) (address availFlags usedFlags : ℕ)
    (availRing : Fin (2 ^ k) → ℕ) (usedRing : Fin (2 ^ k) → UsedElem) (as : List Action)
    (hadm : Admitted Allowed step
      (start (2 ^ k) address availFlags usedFlags availRing usedRing) as) :
    ∃ w, run step (start (2 ^ k) address availFlags usedFlags availRing usedRing) as = .ok w ∧
      w.consumed <+: w.published ∧
      (w.queue.consumeDescriptor w.mem).map Prod.snd =
        .ok w.published[w.consumed.length]? ∧
      w.mem.used.header.index = w.produced.length % 65536 ∧
      (w.guestRead % 65536 ≠ w.mem.used.header.index ↔ w.guestRead < w.produced.length) ∧
      ∀ i, w.guestRead ≤ i → i < w.produced.length →
        w.mem.used.ring[i % w.mem.used.ring.length]? = w.produced[i]? := by
  obtain ⟨w, hrun, h⟩ := run_total (fun _ _ h hadm => Inv.step_total h hadm)
    (start_inv hk address availFlags usedFlags availRing usedRing) hadm
  refine ⟨w, hrun, h.consumed, ?_, h.usedIndex, h.unread_iff, h.guestUsed⟩
  rw [h.consumeDescriptor_eq]
  rfl

/-- A queue of two entries, with three chains that go through it. -/
def threeChains : List Action :=
  [.publish 0, .publish 1, .consume, .produce 0 7, .readUsed, .publish 0, .consume, .consume,
    .produce 1 5]

theorem virtqueue_lossless_three :
    ∃ w, run step (start (2 ^ 1) 4096 0 0 (fun _ => 9) (fun _ => ⟨9, 9⟩)) threeChains = .ok w ∧
      w.consumed <+: w.published ∧
      (w.queue.consumeDescriptor w.mem).map Prod.snd =
        .ok w.published[w.consumed.length]? ∧
      w.mem.used.header.index = w.produced.length % 65536 ∧
      (w.guestRead % 65536 ≠ w.mem.used.header.index ↔ w.guestRead < w.produced.length) ∧
      ∀ i, w.guestRead ≤ i → i < w.produced.length →
        w.mem.used.ring[i % w.mem.used.ring.length]? = w.produced[i]? :=
  virtqueue_lossless (by decide) 4096 0 0 (fun _ => 9) (fun _ => ⟨9, 9⟩) threeChains
    (by decide +kernel)

end Gem5.Virtio
