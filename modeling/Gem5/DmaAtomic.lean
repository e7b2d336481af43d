/-
# Carrying out a DMA action at once

In atomic mode the port moves the bytes of an action in rounds, by a packet for a chunk or through a
backdoor for as long as it lasts.  A round moves the bytes from the position of the generator on
(`Moving`); a loop of rounds leaves the action complete and its bytes moved once each (`Carried`).
Packets do this on every regular region.  Backdoors do it as long as every backdoor that is used holds
the address, and ends, if it ends before the action, at a place from which the generator can go on
(`Steady`).
-/
import Gem5.DmaPort

namespace Gem5.Dma

open Runs ChunkGenerator

/-! ## One round -/

/-- The action `id` with the state `st` has moved the bytes `[first, pos)`. -/
structure Moving (first last pos : ℕ) (p : DmaPort) (id : ℕ) (st : DmaReqState) : Prop where
  states : p.states id = some st
  totBytes : st.totBytes = last - first
  numBytes : st.numBytes = pos - first
  first_le : first ≤ pos
  le_last : pos ≤ last
  space : last - first < 2 ^ 63

/-- How far a backdoor is taken to reach that is used for the address of `pos`. -/
def Backdoor.reach (b : Backdoor) (pos : ℕ) : ℕ := pos + sub64 b.stop (pos % 2 ^ 64)

/-- The backdoor holds the address of `pos`, if any data is moved. -/
def Backdoor.Serves (b : Backdoor) (data : Bool) (pos : ℕ) : Prop :=
  data = true → pos % 2 ^ 64 < b.stop

instance (b : Backdoor) (data : Bool) (pos : ℕ) : Decidable (b.Serves data pos) :=
  inferInstanceAs (Decidable (_ → _))

theorem Backdoor.Serves.check {b : Backdoor} {data : Bool} {pos : ℕ} (h : b.Serves data pos) :
    (!data || decide (pos % 2 ^ 64 < b.stop)) = true := by
  cases data with
  | false => rfl
  | true => exact decide_eq_true (h rfl)

namespace DmaPort

/-- The port after a round that moved `m` and left the generator at `gen`. -/
def afterRound (p : DmaPort) (id : ℕ) (st : DmaReqState) (m : DmaPacket) (gen : ChunkGenerator)
    (bds : List Backdoor) : DmaPort :=
  { (p.transfer st.cmd st.data m).setState id
      (some { st with gen := gen, numBytes := st.numBytes + m.size }) with memBackdoors := bds }

variable {st : DmaReqState} {p : DmaPort} {id pos last : ℕ} {bds : List Backdoor}

/-- A response below the total: the bytes are counted. -/
theorem handleResp_more {size delay : ℕ} (hst : p.states id = some st)
    (hlt : st.numBytes + size < st.totBytes) (hspace : st.totBytes < 2 ^ 64) :
    p.handleResp id size delay =
      .ok (p.setState id (some { st with numBytes := st.numBytes + size })) := by
  have hsum : add64 st.numBytes size = st.numBytes + size := Nat.mod_eq_of_lt (by omega)
  unfold handleResp
  refine bind_eq_ok.mpr ⟨st, orFail_eq_ok.mpr hst, bind_eq_ok.mpr ⟨(), require_ok ?_, ?_⟩⟩
  · rw [hsum]
    exact decide_eq_true (by omega)
  · rw [hsum, if_neg (by omega)]
    rfl

/-- A response that reaches the total: the action is complete. -/
theorem handleResp_last {size delay : ℕ} (hst : p.states id = some st)
    (htot : st.numBytes + size = st.totBytes) (hspace : st.totBytes < 2 ^ 64)
    (hpending : p.pendingCount ≠ 0) :
    p.handleResp id size delay = .ok (p.complete id st delay) := by
  have hsum : add64 st.numBytes size = st.numBytes + size := Nat.mod_eq_of_lt (by omega)
  unfold handleResp
  refine bind_eq_ok.mpr ⟨st, orFail_eq_ok.mpr hst, bind_eq_ok.mpr ⟨(), require_ok ?_, ?_⟩⟩
  · rw [hsum]
    exact decide_eq_true (by omega)
  · rw [hsum, if_pos htot.symm]
    exact bind_eq_ok.mpr ⟨(), require_ok (decide_eq_true hpending), rfl⟩

/-- A response beyond the total fails the assertion. -/
theorem handleResp_over {size delay : ℕ} (hst : p.states id = some st)
    (hgt : st.totBytes < st.numBytes + size) (hspace : st.numBytes + size < 2 ^ 64) :
    p.handleResp id size delay = .error .tooManyBytes := by
  have hsum : add64 st.numBytes size = st.numBytes + size := Nat.mod_eq_of_lt hspace
  unfold handleResp
  rw [hst]
  refine bind_eq_error.mpr (.inr ⟨st, rfl, bind_eq_error.mpr (.inl ?_)⟩)
  rw [hsum]
  exact require_eq_error.mpr ⟨decide_eq_false (by omega), rfl⟩

/-- What a round leaves: the action goes on, or is complete. -/
def roundEnd (p : DmaPort) (id : ℕ) (st : DmaReqState) (m : DmaPacket) (g : Bool × ChunkGenerator)
    (bds : List Backdoor) (delay : ℕ) : Bool × DmaPort :=
  (!g.1,
    if g.1 then p.afterRound id st m g.2 bds
    else (p.afterRound id st m g.2 bds).complete id st delay)

/-- **The end of a round**: the generator moves on and the bytes are counted. -/
theorem finish_round {first q n : ℕ} (h : Moving first last pos p id st)
    (hpending : p.pendingCount ≠ 0) {gen : ChunkGenerator} (hgen : At first last pos q n gen)
    (hpq : pos < q) (hq : q ≤ last) {m : DmaPacket} (hm : m.size = q - pos) (bds : List Backdoor)
    (delay : ℕ) :
    ((({ p.transfer st.cmd st.data m with memBackdoors := bds } : DmaPort).setState id
      (some { st with gen := gen.next.2 })).handleResp id m.size delay) =
        .ok (p.roundEnd id st m gen.next bds delay).2 := by
  have hstates : ∀ s, ((({ p.transfer st.cmd st.data m with memBackdoors := bds } :
      DmaPort).setState id s).states id) = s := fun s => Function.update_self _ _ _
  have hnum := h.numBytes
  have htot := h.totBytes
  have hfirst := h.first_le
  have hspace := h.space
  rcases hq.lt_or_eq with hlt | rfl
  · rw [handleResp_more (hstates _) (by dsimp only; omega) (by dsimp only; omega), roundEnd,
      if_pos (hgen.next_more hlt)]
    simp only [setState, afterRound, Function.update_idem]
  · rw [hgen.next_last, handleResp_last (hstates _) (by dsimp only; omega) (by dsimp only; omega)
      hpending, roundEnd]
    simp only [setState, afterRound, complete, Function.update_idem, Bool.false_eq_true, if_false]

/-- The move of the bytes `[pos, stop)` of an action that began at `first`. -/
def moveOf (id first pos stop : ℕ) : DmaPacket := ⟨id, pos % 2 ^ 64, stop - pos, pos - first⟩

theorem complete_at {first q n : ℕ} {g : ChunkGenerator} (h : At first last pos q n g)
    (hfirst : first < 2 ^ 64) (hpos : first ≤ pos) (hspace : pos - first < 2 ^ 64) :
    g.complete = pos - first := by
  rw [ChunkGenerator.complete, h.curAddr, h.startAddr, sub64]
  omega

theorem createPacket_at {first q n : ℕ} (h : At first last pos q n st.gen) (hfirst : first < 2 ^ 64)
    (hpos : first ≤ pos) (hspace : pos - first < 2 ^ 64) :
    createPacket id st = moveOf id first pos q := by
  rw [createPacket, moveOf, complete_at h hfirst hpos hspace, ChunkGenerator.addr, h.curAddr,
    ChunkGenerator.size, h.curSize]

section

variable (mem : Memory) {first last pos q n : ℕ} {p : DmaPort} {id : ℕ} {st : DmaReqState}

/-- **A round by a packet.** -/
theorem sendAtomicReq_round (h : Moving first last pos p id st) (hpending : p.pendingCount ≠ 0)
    (hgen : At first last pos q n st.gen) (hfirst : first < 2 ^ 64)
    (hpq : pos < q) (hq : q ≤ last) :
    p.sendAtomicReq mem id = .ok (p.roundEnd id st (moveOf id first pos q) st.gen.next
      p.memBackdoors (mem.latency (moveOf id first pos q))) := by
  have hspace := h.space
  have hlast := h.le_last
  have hpacket : createPacket id st = moveOf id first pos q :=
    createPacket_at hgen hfirst h.first_le (by omega)
  have hfinish := finish_round h hpending hgen hpq hq (m := moveOf id first pos q) rfl
    p.memBackdoors (mem.latency (moveOf id first pos q))
  unfold sendAtomicReq
  refine bind_eq_ok.mpr ⟨st, orFail_eq_ok.mpr h.states, ?_⟩
  simp only [hpacket]
  exact bind_eq_ok.mpr ⟨_, hfinish, rfl⟩

/-- **A round by a packet where no backdoor is recorded.** -/
theorem sendAtomicBdReq_packet (h : Moving first last pos p id st) (hpending : p.pendingCount ≠ 0)
    (hgen : At first last pos q n st.gen) (hfirst : first < 2 ^ 64)
    (hpq : pos < q) (hq : q ≤ last)
    (hnone : p.memBackdoors.find? (·.contains (pos % 2 ^ 64)) = none) :
    p.sendAtomicBdReq mem id = .ok (p.roundEnd id st (moveOf id first pos q) st.gen.next
      (record p.memBackdoors (mem.backdoor (moveOf id first pos q)))
      (mem.latency (moveOf id first pos q))) := by
  have hspace := h.space
  have hlast := h.le_last
  have hpacket : createPacket id st = moveOf id first pos q :=
    createPacket_at hgen hfirst h.first_le (by omega)
  have hfinish := finish_round h hpending hgen hpq hq (m := moveOf id first pos q) rfl
    (record p.memBackdoors (mem.backdoor (moveOf id first pos q)))
    (mem.latency (moveOf id first pos q))
  unfold sendAtomicBdReq
  refine bind_eq_ok.mpr ⟨st, orFail_eq_ok.mpr h.states, ?_⟩
  rw [ChunkGenerator.addr, hgen.curAddr, hnone]
  simp only [hpacket]
  exact bind_eq_ok.mpr ⟨_, hfinish, rfl⟩

/-- A round through a backdoor, up to the generator: it moves the bytes to the end of the backdoor
or of the action. -/
theorem sendAtomicBdReq_backdoor_eq (h : Moving first last pos p id st)
    (hstart : st.gen.startAddr = first) (hcur : st.gen.curAddr = pos % 2 ^ 64)
    (hfirst : first < 2 ^ 64) {b : Backdoor}
    (hfind : p.memBackdoors.find? (·.contains (pos % 2 ^ 64)) = some b) (hstop : b.stop < 2 ^ 64)
    (hserves : b.Serves st.data pos) :
    p.sendAtomicBdReq mem id = (do
      let gen ← (st.gen.setNext (min last (b.reach pos) % 2 ^ 64)).mapError .chunk
      let p ← ((p.transfer st.cmd st.data (moveOf id first pos (min last (b.reach pos)))).setState
        id (some { st with gen := gen.next.2 })).handleResp id (min last (b.reach pos) - pos) 0
      return (!gen.next.1, p)) := by
  have hspace := h.space
  have hlast := h.le_last
  have hpos := h.first_le
  have hcontains := List.find?_some hfind
  rw [Backdoor.contains, Bool.and_eq_true, decide_eq_true_eq, decide_eq_true_eq] at hcontains
  have hcomplete : st.gen.complete = pos - first := by
    rw [ChunkGenerator.complete, hcur, hstart, sub64]
    omega
  have hoffset : sub64 (pos % 2 ^ 64) b.start = pos % 2 ^ 64 - b.start := by
    rw [sub64]
    omega
  have hremaining : sub64 (last - first) (pos - first) = last - pos := by
    rw [sub64]
    omega
  have havailable : sub64 (sub64 b.stop b.start) (pos % 2 ^ 64 - b.start) =
      sub64 b.stop (pos % 2 ^ 64) := by
    rw [sub64, sub64, sub64]
    omega
  have hhandled : min (last - pos) (sub64 b.stop (pos % 2 ^ 64)) =
      min last (b.reach pos) - pos := by
    rw [Backdoor.reach]
    omega
  have haddr : add64 b.start (pos % 2 ^ 64 - b.start) = pos % 2 ^ 64 := by
    rw [add64]
    omega
  have hnext : add64 (pos % 2 ^ 64) (min last (b.reach pos) - pos) =
      min last (b.reach pos) % 2 ^ 64 := by
    rw [add64, Backdoor.reach]
    omega
  unfold sendAtomicBdReq
  rw [h.states]
  simp only [orFail]
  dsimp only [bind, Except.bind]
  rw [ChunkGenerator.addr, hcur, hfind]
  simp only [hcomplete, h.totBytes, hoffset, hremaining, havailable, hhandled, haddr, hnext,
    require_ok hserves.check]
  rfl

/-- **A round through a backdoor** that does not end in the current chunk before the action does. -/
theorem sendAtomicBdReq_backdoor {k : ℕ} (hk : k ≤ 64) (hcs : st.gen.chunkSize = 2 ^ k)
    (h : Moving first last pos p id st) (hpending : p.pendingCount ≠ 0)
    (hgen : At first last pos q n st.gen) (hfirst : first < 2 ^ 64) (hpq : pos < q) {b : Backdoor}
    (hfind : p.memBackdoors.find? (·.contains (pos % 2 ^ 64)) = some b) (hstop : b.stop < 2 ^ 64)
    (hserves : b.Serves st.data pos) (hle : q ≤ min last (b.reach pos))
    (hlap : q % 2 ^ 64 ≤ min last (b.reach pos) % 2 ^ 64) :
    ∃ gen, gen.chunkSize = 2 ^ k ∧
      At first last pos (min last (b.reach pos))
        (resumed (2 ^ k) last (min last (b.reach pos))) gen ∧
      p.sendAtomicBdReq mem id = .ok (p.roundEnd id st
        (moveOf id first pos (min last (b.reach pos))) gen.next p.memBackdoors 0) := by
  have hspace := h.space
  have hpos := h.first_le
  obtain ⟨gen, hset, hgencs, hat⟩ := hgen.setNext_ok hk hcs hpq.le hle (min_le_left _ _)
    (by omega) hpos hlap
  refine ⟨gen, hgencs.trans hcs, hat, ?_⟩
  have hfinish := finish_round h hpending hat (hpq.trans_le hle) (min_le_left _ _)
    (m := moveOf id first pos (min last (b.reach pos))) rfl p.memBackdoors 0
  rw [sendAtomicBdReq_backdoor_eq mem h hgen.startAddr hgen.curAddr hfirst hfind hstop hserves,
    hset]
  exact bind_eq_ok.mpr ⟨gen, rfl, bind_eq_ok.mpr ⟨_, hfinish, rfl⟩⟩

end

/-! ## A whole action -/

/-- Moves that pass over the bytes `[pos, last)` once, in order. -/
inductive Covers (id first : ℕ) : ℕ → ℕ → List DmaPacket → Prop
  | nil (pos : ℕ) : Covers id first pos pos []
  | cons {pos q last : ℕ} {ms : List DmaPacket} (hpq : pos < q) (h : Covers id first q last ms) :
      Covers id first pos last (moveOf id first pos q :: ms)

def transferAll (bytes : Bytes) (cmd : DmaCmd) (data : Bool) (ms : List DmaPacket) : Bytes :=
  ms.foldl (fun bytes m => Bytes.transfer bytes cmd data m) bytes

/-- Backdoors have ends that are addresses. -/
def Bounded (bds : List Backdoor) : Prop := ∀ b ∈ bds, b.stop < 2 ^ 64

/-- A new backdoor, recorded or not, joins those that are recorded. -/
theorem record_forall {P : Backdoor → Prop} (h : ∀ b ∈ bds, P b) {o : Option Backdoor}
    (ho : ∀ b ∈ o, P b) : ∀ b ∈ record bds o, P b := by
  cases o with
  | none => exact h
  | some b =>
    unfold record
    dsimp only
    split
    · exact h
    · exact List.forall_mem_cons.mpr ⟨ho b rfl, h⟩

theorem Bounded.record {bds : List Backdoor} (h : Bounded bds) {o : Option Backdoor}
    (ho : ∀ b ∈ o, b.stop < 2 ^ 64) : Bounded (record bds o) := record_forall h ho

/-- The port `p'` after the action `id` has moved `ms` and completed; nothing else has changed, but
for backdoors that were recorded. -/
structure Carried (id : ℕ) (st : DmaReqState) (p p' : DmaPort) (ms : List DmaPacket) : Prop where
  eq : p' = { p with
    moved := p.moved ++ ms
    bytes := transferAll p.bytes st.cmd st.data ms
    states := Function.update p.states id none
    pendingCount := (p.pendingCount + 2 ^ 32 - 1) % 2 ^ 32
    scheduled := p'.scheduled
    memBackdoors := p'.memBackdoors }
  scheduled : ∃ delay, p'.scheduled =
    if st.completionEvent then p.scheduled ++ [(id, delay)] else p.scheduled
  bounded : Bounded p.memBackdoors → Bounded p'.memBackdoors

/-- The last round of an action. -/
theorem carried_last (id : ℕ) (st : DmaReqState) (p : DmaPort) (m : DmaPacket)
    (gen : ChunkGenerator) (delay : ℕ) (hbds : Bounded p.memBackdoors → Bounded bds) :
    Carried id st p ((p.afterRound id st m gen bds).complete id st delay) [m] where
  eq := by
    simp only [afterRound, complete, setState, transfer, transferAll, Function.update_idem,
      List.foldl_cons, List.foldl_nil]
  scheduled := ⟨delay + st.delay, rfl⟩
  bounded := hbds

/-- A round before the last one. -/
theorem Carried.cons {p' : DmaPort} {m : DmaPacket} {gen : ChunkGenerator} {ms : List DmaPacket}
    (hbds : Bounded p.memBackdoors → Bounded bds)
    (h : Carried id { st with gen := gen, numBytes := st.numBytes + m.size }
      (p.afterRound id st m gen bds) p' ms) : Carried id st p p' (m :: ms) where
  eq := by
    rw [h.eq]
    simp only [afterRound, setState, transfer, transferAll, Function.update_idem,
      List.foldl_cons, List.append_assoc, List.cons_append, List.nil_append]
  scheduled := h.scheduled
  bounded := fun hb => h.bounded (hbds hb)

theorem sendAction_more {send : DmaPort → ℕ → Except DmaFault (Bool × DmaPort)} {rounds : ℕ}
    {p' : DmaPort} (h : send p id = .ok (false, p')) :
    sendAction send (rounds + 1) p id = sendAction send rounds p' id := by
  rw [sendAction, h]
  rfl

theorem sendAction_last {send : DmaPort → ℕ → Except DmaFault (Bool × DmaPort)} {rounds : ℕ}
    {p' : DmaPort} (h : send p id = .ok (true, p')) :
    sendAction send (rounds + 1) p id = .ok p' := by
  rw [sendAction, h]
  rfl

section

variable (mem : Memory) {first last pos q n : ℕ} {p : DmaPort} {id : ℕ} {st : DmaReqState}

theorem roundEnd_last (h : At first last pos last n st.gen) (m : DmaPacket) (bds : List Backdoor)
    (delay : ℕ) : p.roundEnd id st m st.gen.next bds delay =
      (true, (p.afterRound id st m st.gen.next.2 bds).complete id st delay) := by
  rw [h.next_last]
  rfl

theorem roundEnd_more {gen : ChunkGenerator} (h : At first last pos q n gen) (hq : q < last)
    (m : DmaPacket) (bds : List Backdoor) (delay : ℕ) :
    p.roundEnd id st m gen.next bds delay = (false, p.afterRound id st m gen.next.2 bds) := by
  rw [roundEnd, h.next_more hq]
  rfl

/-- A round that does not end the action leaves it at the next position. -/
theorem moving_afterRound (h : Moving first last pos p id st) (hpq : pos ≤ q) (hq : q ≤ last)
    (gen : ChunkGenerator) (bds : List Backdoor) :
    Moving first last q (p.afterRound id st (moveOf id first pos q) gen bds) id
      { st with gen := gen, numBytes := st.numBytes + (moveOf id first pos q).size } where
  states := Function.update_self _ _ _
  totBytes := h.totBytes
  numBytes := by
    have hpos := h.first_le
    dsimp only [moveOf]
    rw [h.numBytes]
    omega
  first_le := h.first_le.trans hpq
  le_last := hq
  space := h.space

/-- **Packets carry out an action**: whatever the chunks, each byte is moved once. -/
theorem packets_carried {k : ℕ} (hfirst : first < 2 ^ 64) {rounds : ℕ}
    (hrounds : last - pos ≤ rounds) (h : Moving first last pos p id st)
    (hpending : p.pendingCount ≠ 0) (hcs : st.gen.chunkSize = 2 ^ k)
    (hgen : At first last pos q (min (last - q) (2 ^ k)) st.gen) (hpq : pos < q) (hq : q ≤ last) :
    ∃ p' ms, sendAction (sendAtomicReq mem) rounds p id = .ok p' ∧ Covers id first pos last ms ∧
      Carried id st p p' ms := by
  induction rounds generalizing pos q p st with
  | zero => omega
  | succ rounds ih =>
    have hround := sendAtomicReq_round mem h hpending hgen hfirst hpq hq
    rcases hq.lt_or_eq with hlt | rfl
    · rw [roundEnd_more hgen hlt] at hround
      rw [sendAction_more hround]
      have hpos := h.first_le
      have hspace := h.space
      have hkpos : 0 < 2 ^ k := Nat.two_pow_pos k
      obtain ⟨hnextcs, hnext⟩ := hgen.next_chunk hlt (min_le_left _ _) (by omega) (by omega)
      rw [hcs] at hnext hnextcs
      have hleft : last - q ≤ rounds := by omega
      obtain ⟨p', ms, hrun, hcovers, hcarried⟩ := ih hleft
        (moving_afterRound h hpq.le hq st.gen.next.2 p.memBackdoors) hpending hnextcs hnext
        (by omega) (by omega)
      exact ⟨p', _, hrun, .cons hpq hcovers, hcarried.cons fun hb => hb⟩
    · rw [roundEnd_last hgen] at hround
      exact ⟨_, _, sendAction_last hround, .cons hpq (.nil _),
        carried_last _ _ _ _ _ _ fun hb => hb⟩

end

/-! ## Backdoors -/

/-- The backdoor that is used at a position. -/
def findAt (bds : List Backdoor) (pos : ℕ) : Option Backdoor :=
  bds.find? (·.contains (pos % 2 ^ 64))

/-- From `pos` on, backdoors follow each other without a gap up to `last`. -/
inductive Chained (last : ℕ) (bds : List Backdoor) : ℕ → Prop
  | last {pos : ℕ} {b : Backdoor} (hb : findAt bds pos = some b) (hlast : last ≤ b.reach pos) :
      Chained last bds pos
  | more {pos : ℕ} {b : Backdoor} (hb : findAt bds pos = some b) (hmore : b.reach pos < last)
      (hrest : Chained last bds (b.reach pos)) : Chained last bds pos

/-- From `pos` on, in a chunk that ends at `q`, every backdoor that is used holds the address, and
one that ends before `last` ends at a chunk boundary, or behind the current chunk and in a chunk that
ends by `last`.  The last chunk of the address space may also be left to backdoors alone. -/
inductive Steady (mem : Memory) (cs id : ℕ) (data : Bool) (first last : ℕ) :
    List Backdoor → ℕ → ℕ → Prop
  | packet_last {bds : List Backdoor} {pos : ℕ} (hb : findAt bds pos = none) :
      Steady mem cs id data first last bds pos last
  | packet {bds : List Backdoor} {pos q : ℕ} (hb : findAt bds pos = none) (hq : q < last)
      (hrest : Steady mem cs id data first last
        (record bds (mem.backdoor (moveOf id first pos q))) q (q + min (last - q) cs)) :
      Steady mem cs id data first last bds pos q
  | backdoor_last {bds : List Backdoor} {pos q : ℕ} {b : Backdoor} (hb : findAt bds pos = some b)
      (hserves : b.Serves data pos) (hlast : last ≤ b.reach pos) :
      Steady mem cs id data first last bds pos q
  | backdoor {bds : List Backdoor} {pos q : ℕ} {b : Backdoor} (hb : findAt bds pos = some b)
      (hserves : b.Serves data pos) (hmore : b.reach pos < last) (hq : q ≤ b.reach pos)
      (hfits : b.reach pos % cs = 0 ∨ boundary cs (b.reach pos) ≤ last)
      (hrest : Steady mem cs id data first last bds (b.reach pos)
        (b.reach pos + resumed cs last (b.reach pos))) :
      Steady mem cs id data first last bds pos q
  | chained {bds : List Backdoor} {pos q : ℕ} {b : Backdoor} (hb : findAt bds pos = some b)
      (hserves : b.Serves data pos) (hmore : b.reach pos < last) (hq : q ≤ b.reach pos)
      (hunaligned : b.reach pos % cs ≠ 0) (hend : boundary cs (b.reach pos) = 2 ^ 64)
      (hlast : last < 2 ^ 64) (hrest : Chained last bds (b.reach pos)) :
      Steady mem cs id data first last bds pos q

theorem findAt_spec {b : Backdoor} (hbds : Bounded bds) (hb : findAt bds pos = some b) :
    b.stop < 2 ^ 64 ∧ (pos % 2 ^ 64 < b.stop ∨ pos % 2 ^ 64 = 2 ^ 64 - 1) := by
  have hcontains := List.find?_some hb
  rw [Backdoor.contains, Bool.and_eq_true, decide_eq_true_eq, decide_eq_true_eq, add64]
    at hcontains
  exact ⟨hbds b (List.mem_of_find?_eq_some hb), by omega⟩

/-- A backdoor that is found before the last address holds the address. -/
theorem findAt_serves {b : Backdoor} (hbds : Bounded bds) (hb : findAt bds pos = some b)
    (hlt : pos < last) (hlast : last < 2 ^ 64) (data : Bool) :
    b.Serves data pos ∧ pos < b.reach pos := by
  obtain ⟨hstop, hbelow⟩ := findAt_spec hbds hb
  have hin : pos % 2 ^ 64 < b.stop := by omega
  refine ⟨fun _ => hin, ?_⟩
  rw [Backdoor.reach, sub64]
  omega

theorem resumed_pos {k r : ℕ} (hr : r < last) : 0 < resumed (2 ^ k) last r := by
  have hpos : 0 < 2 ^ k := Nat.two_pow_pos k
  have hlt := lt_boundary hpos r
  rw [resumed]
  split <;> omega

theorem resumed_le {cs r : ℕ} (h : r % cs = 0 ∨ boundary cs r ≤ last) :
    resumed cs last r ≤ last - r := by
  rw [resumed]
  split
  · exact min_le_left _ _
  · rename_i hne
    have := h.resolve_left hne
    omega

section

variable (mem : Memory) {first last pos q n : ℕ} {p : DmaPort} {id : ℕ} {st : DmaReqState}

/-- **A round through a backdoor in the last chunk of the address space.** -/
theorem sendAtomicBdReq_beyond {k : ℕ} (hk : k ≤ 64) (hcs : st.gen.chunkSize = 2 ^ k)
    (h : Moving first last pos p id st) (hpending : p.pendingCount ≠ 0)
    (hgen : Beyond first last pos st.gen) (hfirst : first < 2 ^ 64) (hlt : pos < last)
    (hlast : last < 2 ^ 64) {b : Backdoor} (hb : findAt p.memBackdoors pos = some b)
    (hbds : Bounded p.memBackdoors) :
    ∃ gen, gen.chunkSize = 2 ^ k ∧
      At first last pos (min last (b.reach pos))
        (resumed (2 ^ k) last (min last (b.reach pos))) gen ∧
      p.sendAtomicBdReq mem id = .ok (p.roundEnd id st
        (moveOf id first pos (min last (b.reach pos))) gen.next p.memBackdoors 0) := by
  obtain ⟨hserves, hfar⟩ := findAt_serves hbds hb hlt hlast st.data
  have hreach : pos < min last (b.reach pos) := lt_min hlt hfar
  obtain ⟨gen, hset, hgencs, hat⟩ := hgen.setNext_ok hk hcs hreach (min_le_left _ _) hlast
  refine ⟨gen, hgencs.trans hcs, hat, ?_⟩
  have hfinish := finish_round h hpending hat hreach (min_le_left _ _)
    (m := moveOf id first pos (min last (b.reach pos))) rfl p.memBackdoors 0
  have hcur : st.gen.curAddr = pos % 2 ^ 64 := by
    rw [hgen.curAddr, Nat.mod_eq_of_lt (by omega)]
  rw [sendAtomicBdReq_backdoor_eq mem h hgen.startAddr hcur hfirst hb (findAt_spec hbds hb).1
    hserves, hset]
  exact bind_eq_ok.mpr ⟨gen, rfl, bind_eq_ok.mpr ⟨_, hfinish, rfl⟩⟩

/-- Behind an address of the last chunk of the address space no boundary follows but its end. -/
theorem last_chunk {k pos r : ℕ} (hk : k ≤ 64) (hend : boundary (2 ^ k) pos = 2 ^ 64)
    (hpos : pos < r) (hr : r < 2 ^ 64) : r % 2 ^ k ≠ 0 ∧ boundary (2 ^ k) r = 2 ^ 64 := by
  constructor
  · intro haligned
    have := boundary_le_of_aligned hpos haligned
    omega
  · have hle := boundary_le_space hk hr
    have hge := boundary_le_of_aligned (hpos.trans (lt_boundary (Nat.two_pow_pos k) r))
      (boundary_mod (2 ^ k) r)
    omega

variable {bds : List Backdoor}

/-- **A chain of backdoors carries out the rest of an action** in the last chunk of the address
space. -/
theorem chain_carried {k : ℕ} (hk : k ≤ 64) (hfirst : first < 2 ^ 64) (hlast : last < 2 ^ 64)
    (hbds : Bounded bds) (hchain : Chained last bds pos) {rounds : ℕ}
    (hrounds : last - pos ≤ rounds) (h : Moving first last pos p id st) (hp : p.memBackdoors = bds)
    (hpending : p.pendingCount ≠ 0) (hcs : st.gen.chunkSize = 2 ^ k)
    (hgen : Beyond first last pos st.gen) (hlt : pos < last) (hend : boundary (2 ^ k) pos = 2 ^ 64)
    :
    ∃ p' ms, sendAction (sendAtomicBdReq mem) rounds p id = .ok p' ∧
      Covers id first pos last ms ∧ Carried id st p p' ms := by
  induction hchain generalizing rounds p st with
  | @last pos b hb hreach =>
    subst hp
    obtain ⟨gen, -, hat, hround⟩ := sendAtomicBdReq_beyond mem hk hcs h hpending hgen hfirst
      hlt hlast hb hbds
    rw [min_eq_left hreach] at hat hround
    obtain ⟨rounds, rfl⟩ : ∃ m, rounds = m + 1 := Nat.exists_eq_succ_of_ne_zero (by omega)
    rw [roundEnd, hat.next_last] at hround
    exact ⟨_, _, sendAction_last hround, .cons hlt (.nil _),
      carried_last _ _ _ _ _ _ fun hb => hb⟩
  | @more pos b hb hmore hrest ih =>
    subst hp
    obtain ⟨gen, hgencs, hat, hround⟩ := sendAtomicBdReq_beyond mem hk hcs h hpending hgen hfirst
      hlt hlast hb hbds
    rw [min_eq_right hmore.le] at hat hround
    have hreach : pos < b.reach pos := (findAt_serves hbds hb hlt hlast st.data).2
    obtain ⟨hunaligned, hnext⟩ := last_chunk hk hend hreach (by omega)
    obtain ⟨hnextcs, hbeyond⟩ := hat.next_beyond hmore hlast hunaligned hnext
    obtain ⟨rounds, rfl⟩ : ∃ m, rounds = m + 1 := Nat.exists_eq_succ_of_ne_zero (by omega)
    rw [roundEnd_more hat hmore] at hround
    rw [sendAction_more hround]
    have hleft : last - b.reach pos ≤ rounds := by omega
    obtain ⟨p', ms, hrun, hcovers, hcarried⟩ := ih hleft
      (moving_afterRound h hreach.le hmore.le gen.next.2 p.memBackdoors) rfl hpending
      (hnextcs.trans hgencs) hbeyond hmore hnext
    exact ⟨p', _, hrun, .cons hreach hcovers, hcarried.cons fun hb => hb⟩

/-- What a backdoor is taken to hold is in one lap of the address space. -/
theorem same_lap (hbds : Bounded bds) {b : Backdoor} (hb : findAt bds pos = some b) (hpq : pos < q)
    (hq : q ≤ min last (b.reach pos)) :
    q % 2 ^ 64 ≤ min last (b.reach pos) % 2 ^ 64 ∧ pos < b.reach pos := by
  obtain ⟨hstop, hbelow⟩ := findAt_spec hbds hb
  rw [Backdoor.reach, sub64] at *
  omega

/-- **Backdoors and packets together carry out an action** if the backdoors are steady. -/
theorem backdoors_carried {k : ℕ} (hk : k ≤ 64) (hfirst : first < 2 ^ 64)
    (hmem : ∀ m, ∀ b ∈ mem.backdoor m, b.stop < 2 ^ 64) {data : Bool}
    (hsteady : Steady mem (2 ^ k) id data first last bds pos q) (hbds : Bounded bds) {rounds : ℕ}
    (hrounds : last - pos ≤ rounds) (h : Moving first last pos p id st) (hdata : st.data = data)
    (hp : p.memBackdoors = bds) (hpending : p.pendingCount ≠ 0) (hcs : st.gen.chunkSize = 2 ^ k)
    (hgen : At first last pos q (min (last - q) (2 ^ k)) st.gen) (hpq : pos < q) (hq : q ≤ last) :
    ∃ p' ms, sendAction (sendAtomicBdReq mem) rounds p id = .ok p' ∧
      Covers id first pos last ms ∧ Carried id st p p' ms := by
  induction hsteady generalizing rounds p st with
  | @packet_last bds pos hb =>
    subst hp
    have hround := sendAtomicBdReq_packet mem h hpending hgen hfirst hpq hq hb
    obtain ⟨rounds, rfl⟩ : ∃ m, rounds = m + 1 := Nat.exists_eq_succ_of_ne_zero (by omega)
    rw [roundEnd_last hgen] at hround
    exact ⟨_, _, sendAction_last hround, .cons hpq (.nil _),
      carried_last _ _ _ _ _ _ fun hb => hb.record (hmem _)⟩
  | @packet bds pos q hb hlt hrest ih =>
    subst hp
    have hspace := h.space
    have hpos := h.first_le
    have hkpos : 0 < 2 ^ k := Nat.two_pow_pos k
    have hround := sendAtomicBdReq_packet mem h hpending hgen hfirst hpq hq hb
    obtain ⟨rounds, rfl⟩ : ∃ m, rounds = m + 1 := Nat.exists_eq_succ_of_ne_zero (by omega)
    rw [roundEnd_more hgen hlt] at hround
    rw [sendAction_more hround]
    obtain ⟨hnextcs, hnext⟩ := hgen.next_chunk hlt (min_le_left _ _) (by omega) (by omega)
    rw [hcs] at hnext hnextcs
    have hleft : last - q ≤ rounds := by omega
    obtain ⟨p', ms, hrun, hcovers, hcarried⟩ := ih (hbds.record (hmem _)) hleft
      (moving_afterRound h hpq.le hq st.gen.next.2 _) hdata rfl hpending hnextcs hnext (by omega)
      (by omega)
    exact ⟨p', _, hrun, .cons hpq hcovers, hcarried.cons fun hb => hb.record (hmem _)⟩
  | @backdoor_last bds pos q b hb hserves hlast =>
    subst hp hdata
    have hle : q ≤ min last (b.reach pos) := le_min hq (hq.trans hlast)
    obtain ⟨hlap, hreach⟩ := same_lap hbds hb hpq hle
    obtain ⟨gen, -, hat, hround⟩ := sendAtomicBdReq_backdoor mem hk hcs h hpending hgen
      hfirst hpq hb (findAt_spec hbds hb).1 hserves hle hlap
    rw [min_eq_left hlast] at hat hround
    obtain ⟨rounds, rfl⟩ : ∃ m, rounds = m + 1 := Nat.exists_eq_succ_of_ne_zero (by omega)
    rw [roundEnd, hat.next_last] at hround
    exact ⟨_, _, sendAction_last hround, .cons (hpq.trans_le hq) (.nil _),
      carried_last _ _ _ _ _ _ fun hb => hb⟩
  | @backdoor bds pos q b hb hserves hmore hle hfits hrest ih =>
    subst hp hdata
    have hspace := h.space
    have hpos := h.first_le
    have hmin : q ≤ min last (b.reach pos) := le_min hq hle
    obtain ⟨hlap, hreach⟩ := same_lap hbds hb hpq hmin
    obtain ⟨gen, hgencs, hat, hround⟩ := sendAtomicBdReq_backdoor mem hk hcs h hpending
      hgen hfirst hpq hb (findAt_spec hbds hb).1 hserves hmin hlap
    rw [min_eq_right hmore.le] at hat hround
    obtain ⟨rounds, rfl⟩ : ∃ m, rounds = m + 1 := Nat.exists_eq_succ_of_ne_zero (by omega)
    rw [roundEnd_more hat hmore] at hround
    rw [sendAction_more hround]
    have hsize : resumed (2 ^ k) last (b.reach pos) ≤ last - b.reach pos := resumed_le hfits
    have hnonzero : 0 < resumed (2 ^ k) last (b.reach pos) := resumed_pos hmore
    obtain ⟨hnextcs, hnext⟩ := hat.next_chunk hmore hsize (by omega) (by omega)
    rw [hgencs] at hnext hnextcs
    have hleft : last - b.reach pos ≤ rounds := by omega
    obtain ⟨p', ms, hrun, hcovers, hcarried⟩ := ih hbds hleft
      (moving_afterRound h hreach.le hmore.le gen.next.2 _) rfl rfl hpending hnextcs hnext
      (by omega) (by omega)
    exact ⟨p', _, hrun, .cons hreach hcovers, hcarried.cons fun hb => hb⟩
  | @chained bds pos q b hb hserves hmore hle hunaligned hend hlast hrest =>
    subst hp hdata
    have hmin : q ≤ min last (b.reach pos) := le_min hq hle
    obtain ⟨hlap, hreach⟩ := same_lap hbds hb hpq hmin
    obtain ⟨gen, hgencs, hat, hround⟩ := sendAtomicBdReq_backdoor mem hk hcs h hpending
      hgen hfirst hpq hb (findAt_spec hbds hb).1 hserves hmin hlap
    rw [min_eq_right hmore.le] at hat hround
    obtain ⟨rounds, rfl⟩ : ∃ m, rounds = m + 1 := Nat.exists_eq_succ_of_ne_zero (by omega)
    rw [roundEnd_more hat hmore] at hround
    rw [sendAction_more hround]
    obtain ⟨hnextcs, hbeyond⟩ := hat.next_beyond hmore hlast hunaligned hend
    have hleft : last - b.reach pos ≤ rounds := by omega
    obtain ⟨p', ms, hrun, hcovers, hcarried⟩ := chain_carried mem hk hfirst hlast hbds hrest hleft
      (moving_afterRound h hreach.le hmore.le gen.next.2 _) rfl hpending (hnextcs.trans hgencs)
      hbeyond hmore hend
    exact ⟨p', _, hrun, .cons hreach hcovers, hcarried.cons fun hb => hb⟩

end

end DmaPort

end Gem5.Dma
