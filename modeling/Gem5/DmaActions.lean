/-
# New DMA actions

A new action is put at the end of the list and, outside timing mode, carried out by one loop that
starts at its first byte.
-/
import Gem5.DmaAtomic

namespace Gem5.Dma

open Runs ChunkGenerator

namespace DmaPort

/-! ## New actions -/

section

variable {p : DmaPort} {r : Request} {st : DmaReqState}

/-- The port after a new action was put in the list. -/
def started (p : DmaPort) (r : Request) (st : DmaReqState) : DmaPort :=
  { p.setState p.requests.length (some st) with
    transmitList := p.transmitList ++ [p.requests.length]
    requests := p.requests ++ [r]
    pendingCount := (p.pendingCount + 1) % 2 ^ 32 }

/-- The bytes that the moves of an action pass over. -/
theorem Covers.sum {id first pos last : ℕ} {ms : List DmaPacket} (h : Covers id first pos last ms) :
    (ms.map (·.size)).sum = last - pos ∧ pos ≤ last ∧ ∀ m ∈ ms, m.state = id := by
  induction h with
  | nil pos => exact ⟨(Nat.sub_self pos).symm, le_rfl, nofun⟩
  | @cons pos q last ms hpq _ ih =>
    obtain ⟨hsum, hle, hid⟩ := ih
    refine ⟨?_, hpq.le.trans hle, fun m hm => ?_⟩
    · rw [List.map_cons, List.sum_cons, hsum]
      dsimp only [moveOf]
      omega
    · rcases List.mem_cons.mp hm with rfl | hm
      · rfl
      · exact hid m hm

end

/-! ## One step -/

section

variable {k : ℕ} {mem : Memory} {p : DmaPort}

/-- The state of a new action. -/
def newState (r : Request) (gen : ChunkGenerator) : DmaReqState :=
  ⟨r.cmd, r.event, r.size, 0, r.delay, gen, r.data⟩

theorem dmaAction_eq {r : Request} {gen : ChunkGenerator} (answer : Answer)
    (hgen : ChunkGenerator.create r.addr r.size p.cacheLineSize = .ok gen) :
    p.dmaAction mem r answer = (p.started r (newState r gen)).sendDma mem answer := by
  rw [DmaPort.dmaAction, hgen]
  rfl

theorem require_list {l : List ℕ} (hne : l ≠ []) :
    require DmaFault.nothingToSend (!l.isEmpty) = .ok () := by
  refine require_ok ?_
  rw [Bool.not_eq_true', ← Bool.not_eq_true, List.isEmpty_iff]
  exact hne

theorem foldlM_single (f : DmaPort → ℕ → Except DmaFault DmaPort) (p : DmaPort) (id : ℕ) :
    [id].foldlM f p = f p id := by
  rw [List.foldlM_cons]
  cases f p id <;> rfl

theorem sendDma_atomic (mem : Memory) (hmode : p.mode = .atomic) {id : ℕ}
    (hlist : p.transmitList = [id]) (answer : Answer) : p.sendDma mem answer =
      sendOne (sendAtomicReq mem) { p with transmitList := [] } id := by
  rw [sendDma, require_list (hlist ▸ List.cons_ne_nil _ _), hmode, hlist]
  exact foldlM_single _ _ _

theorem sendDma_bypass (mem : Memory) (hmode : p.mode = .bypass) {id : ℕ}
    (hlist : p.transmitList = [id]) (answer : Answer) : p.sendDma mem answer =
      sendOne (sendAtomicBdReq mem) { p with transmitList := [] } id := by
  rw [sendDma, require_list (hlist ▸ List.cons_ne_nil _ _), hmode, hlist]
  exact foldlM_single _ _ _

/-- The loop over an action starts at its first byte. -/
theorem moving_started (r : Request) (gen : ChunkGenerator) (hsize : r.size < 2 ^ 63) :
    Moving r.addr (r.addr + r.size) r.addr
      ({ p.started r (newState r gen) with transmitList := [] } : DmaPort) p.requests.length
      (newState r gen) where
  states := setState_self p _ _
  totBytes := (Nat.add_sub_cancel_left _ _).symm
  numBytes := (Nat.sub_self _).symm
  first_le := le_rfl
  le_last := Nat.le_add_right _ _
  space := by omega

/-- An action with bytes enters the loop. -/
theorem sendOne_started {send : DmaPort → ℕ → Except DmaFault (Bool × DmaPort)} (r : Request)
    (gen : ChunkGenerator) (hcur : gen.curSize ≠ 0) :
    sendOne send ({ p.started r (newState r gen) with transmitList := [] } : DmaPort)
      p.requests.length =
        sendAction send r.size ({ p.started r (newState r gen) with transmitList := [] } : DmaPort)
          p.requests.length := by
  have hst : ({ p.started r (newState r gen) with transmitList := [] } : DmaPort).states
      p.requests.length = some (newState r gen) := setState_self p _ _
  have hdone : ¬ (newState r gen).gen.done = true := by
    rw [ChunkGenerator.done, beq_iff_eq]
    exact hcur
  rw [sendOne, hst]
  simp only [orFail]
  change (if (newState r gen).gen.done = true then _ else _) = _
  rw [if_neg hdone]
  rfl

end

/-- A memory without backdoors. -/
def plainMemory : Memory := ⟨fun _ => 10, fun _ => none⟩

/-- A memory and buffers of zeros. -/
def zeros : Bytes := ⟨fun _ => 0, fun _ _ => 0⟩

end DmaPort

end Gem5.Dma
