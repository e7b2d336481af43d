/-
# Backdoors and packets move the same bytes

With the caches bypassed an action goes through the backdoors that are recorded and by packets where
there is none.  It has the effect of packets alone (`SameEffect`) exactly when the first chunk of
the action is computed correctly and the backdoors that it meets are steady
(`backdoor_equals_packet_iff`).  A backdoor that ends inside the current chunk, or in a chunk that
reaches beyond the action, fails an assertion.
-/
import Gem5.DmaActions

namespace Gem5.Dma

open Runs ChunkGenerator

namespace DmaPort

/-! ## The bytes of a list of moves -/

/-- The bytes that are moved: an address in memory and an offset in the buffer for each. -/
def byteMoves (ms : List DmaPacket) : List (ℕ × ℕ) :=
  ms.flatMap fun m => (List.range m.size).map fun i => (m.addr + i, m.offset + i)

def movedSize (ms : List DmaPacket) : ℕ := (ms.map (·.size)).sum

theorem byteMoves_length (ms : List DmaPacket) : (byteMoves ms).length = movedSize ms := by
  rw [byteMoves, List.length_flatMap]
  simp only [List.length_map, List.length_range]
  rfl

theorem movedSize_snoc (ms : List DmaPacket) (m : DmaPacket) :
    movedSize (ms ++ [m]) = movedSize ms + m.size := by
  simp [movedSize]

/-- The bytes of one move to a position and of the bytes behind it are those of both. -/
theorem range_split {a b : ℕ} (x y : ℕ) :
    (List.range (a + b)).map (fun i => (x + i, y + i)) =
      (List.range a).map (fun i => (x + i, y + i)) ++
        (List.range b).map fun i => (x + a + i, y + a + i) := by
  rw [List.range_add, List.map_append, List.map_map]
  congr 1
  refine List.map_congr_left fun i _ => ?_
  simp only [Function.comp_apply, Nat.add_assoc]

/-- **Moves that cover a region** move each of its bytes once, in order. -/
theorem Covers.byteMoves {id first pos last : ℕ} {ms : List DmaPacket}
    (h : Covers id first pos last ms) (hfirst : first ≤ pos) (hlast : last ≤ 2 ^ 64) :
    byteMoves ms = (List.range (last - pos)).map fun i => (pos + i, pos - first + i) := by
  induction h with
  | nil pos =>
    rw [Nat.sub_self]
    rfl
  | @cons pos q last ms hpq hrest ih =>
    have hq := hrest.sum.2.1
    have hsplit : last - pos = (q - pos) + (last - q) := by omega
    have haddr : pos % 2 ^ 64 = pos := Nat.mod_eq_of_lt (by omega)
    have hmem : pos + (q - pos) = q := by omega
    have hbuffer : pos - first + (q - pos) = q - first := by omega
    have hcons : DmaPort.byteMoves (moveOf id first pos q :: ms) =
        ((List.range (q - pos)).map fun i => (pos % 2 ^ 64 + i, pos - first + i)) ++
          DmaPort.byteMoves ms := rfl
    rw [hcons, ih (by omega) hlast, hsplit, range_split, haddr, hmem, hbuffer]

/-- A copy in two parts. -/
theorem copyBytes_append (dst src : ℕ → BitVec 8) (dstAt srcAt a b : ℕ) :
    copyBytes (copyBytes dst src dstAt srcAt a) src (dstAt + a) (srcAt + a) b =
      copyBytes dst src dstAt srcAt (a + b) := by
  funext x
  simp only [copyBytes]
  by_cases hlow : dstAt ≤ x ∧ x < dstAt + a
  · rw [if_neg (by omega), if_pos hlow, if_pos (by omega)]
  · by_cases hhigh : dstAt + a ≤ x ∧ x < dstAt + a + b
    · have hsrc : srcAt + a + (x - (dstAt + a)) = srcAt + (x - dstAt) := by omega
      rw [if_pos hhigh, if_pos (by omega), hsrc]
    · rw [if_neg hhigh, if_neg hlow, if_neg (by omega)]

/-- **Two moves that follow each other** have the effect of one. -/
theorem transfer_append (bytes : Bytes) (cmd : DmaCmd) (data : Bool) {id first pos q last : ℕ}
    (hfirst : first ≤ pos) (hpq : pos ≤ q) (hq : q ≤ last) (hpos : pos < 2 ^ 64)
    (hmid : q < 2 ^ 64) :
    Bytes.transfer (Bytes.transfer bytes cmd data (moveOf id first pos q)) cmd data
      (moveOf id first q last) = Bytes.transfer bytes cmd data (moveOf id first pos last) := by
  have hmem : pos + (q - pos) = q := by omega
  have hbuffer : pos - first + (q - pos) = q - first := by omega
  have hsize : q - pos + (last - q) = last - pos := by omega
  have hread := copyBytes_append (bytes.buffers id) bytes.memory (pos - first) pos (q - pos)
    (last - q)
  have hwrite := copyBytes_append bytes.memory (bytes.buffers id) pos (pos - first) (q - pos)
    (last - q)
  rw [hmem, hbuffer, hsize] at hread hwrite
  cases data with
  | false => rfl
  | true =>
    cases cmd <;>
      simp only [Bytes.transfer, moveOf, Nat.mod_eq_of_lt hpos, Nat.mod_eq_of_lt hmid,
        Bool.not_true, Bool.false_eq_true, if_false, Function.update_self, Function.update_idem,
        hread, hwrite]

/-- **Moves that cover a region** have the effect of one move of the whole region. -/
theorem Covers.transferAll {id first pos last : ℕ} {ms : List DmaPacket}
    (h : Covers id first pos last ms) (bytes : Bytes) (cmd : DmaCmd) (data : Bool)
    (hfirst : first ≤ pos) (hlt : pos < last) (hlast : last ≤ 2 ^ 64) :
    transferAll bytes cmd data ms = Bytes.transfer bytes cmd data (moveOf id first pos last) := by
  induction h generalizing bytes with
  | nil pos => omega
  | @cons pos q last ms hpq hrest ih =>
    have hq := hrest.sum.2.1
    have hcons : DmaPort.transferAll bytes cmd data (moveOf id first pos q :: ms) =
        DmaPort.transferAll (Bytes.transfer bytes cmd data (moveOf id first pos q)) cmd data ms :=
      rfl
    rcases hq.lt_or_eq with hql | rfl
    · rw [hcons, ih _ (by omega) hql hlast,
        transfer_append bytes cmd data hfirst hpq.le hq (by omega) (by omega)]
    · cases hrest with
      | nil => rfl
      | cons hlt' hrest' => exact absurd (hlt'.trans_le hrest'.sum.2.1) (lt_irrefl _)

/-! ## Rounds that fail -/

section

variable (mem : Memory) {first last pos q n : ℕ} {p : DmaPort} {id : ℕ} {st : DmaReqState}

/-- A response beyond the total fails, wherever the generator is. -/
theorem handleResp_too_many (h : Moving first last pos p id st)
    (hover : last - pos < st.gen.curSize) (hspace : pos - first + st.gen.curSize < 2 ^ 64)
    (gen : ChunkGenerator) (m : DmaPacket) (bds : List Backdoor) (delay : ℕ) :
    (({ p.transfer st.cmd st.data m with memBackdoors := bds } : DmaPort).setState id
      (some { st with gen := gen })).handleResp id st.gen.curSize delay =
        .error .tooManyBytes := by
  have hpos := h.first_le
  have hlast := h.le_last
  refine handleResp_over (Function.update_self _ _ _) ?_ ?_
  · dsimp only
    rw [h.totBytes, h.numBytes]
    omega
  · dsimp only
    rw [h.numBytes]
    exact hspace

/-- **A packet beyond the action** fails the assertion on its response. -/
theorem sendAtomicReq_over (h : Moving first last pos p id st) (hover : last - pos < st.gen.curSize)
    (hspace : pos - first + st.gen.curSize < 2 ^ 64) :
    p.sendAtomicReq mem id = .error .tooManyBytes := by
  have hfail := handleResp_too_many h hover hspace st.gen.next.2 (createPacket id st)
    p.memBackdoors (mem.latency (createPacket id st))
  unfold sendAtomicReq
  refine bind_eq_error.mpr (.inr ⟨st, orFail_eq_ok.mpr h.states, ?_⟩)
  exact bind_eq_error.mpr (.inl hfail)

theorem sendAtomicBdReq_over (h : Moving first last pos p id st)
    (hover : last - pos < st.gen.curSize) (hspace : pos - first + st.gen.curSize < 2 ^ 64)
    (hnone : p.memBackdoors.find? (·.contains st.gen.addr) = none) :
    p.sendAtomicBdReq mem id = .error .tooManyBytes := by
  have hfail := handleResp_too_many h hover hspace st.gen.next.2 (createPacket id st)
    (record p.memBackdoors (mem.backdoor (createPacket id st))) (mem.latency (createPacket id st))
  unfold sendAtomicBdReq
  refine bind_eq_error.mpr (.inr ⟨st, orFail_eq_ok.mpr h.states, ?_⟩)
  rw [hnone]
  exact bind_eq_error.mpr (.inl hfail)

/-- **A backdoor that does not hold the address** is used for the last address. -/
theorem sendAtomicBdReq_outside (h : Moving first last pos p id st)
    (hcur : st.gen.curAddr = pos % 2 ^ 64) {b : Backdoor}
    (hb : findAt p.memBackdoors pos = some b) (hserves : ¬b.Serves st.data pos) :
    p.sendAtomicBdReq mem id = .error .outsideBackdoor := by
  rw [findAt] at hb
  rw [Backdoor.Serves, Classical.not_imp] at hserves
  unfold sendAtomicBdReq
  refine bind_eq_error.mpr (.inr ⟨st, orFail_eq_ok.mpr h.states, ?_⟩)
  rw [ChunkGenerator.addr, hcur, hb]
  refine bind_eq_error.mpr (.inl (require_eq_error.mpr ⟨?_, rfl⟩))
  rw [hserves.1]
  exact decide_eq_false hserves.2

/-- **A backdoor that ends before the next chunk begins** fails the assertion of `setNext`. -/
theorem sendAtomicBdReq_low (h : Moving first last pos p id st) (hstart : st.gen.startAddr = first)
    (hcur : st.gen.curAddr = pos % 2 ^ 64) (hfirst : first < 2 ^ 64) {b : Backdoor}
    (hb : findAt p.memBackdoors pos = some b) (hbds : Bounded p.memBackdoors)
    (hserves : b.Serves st.data pos)
    (hlow : min last (b.reach pos) % 2 ^ 64 < st.gen.nextAddr) :
    p.sendAtomicBdReq mem id = .error (.chunk .nextTooLow) := by
  rw [sendAtomicBdReq_backdoor_eq mem h hstart hcur hfirst hb (findAt_spec hbds hb).1 hserves,
    setNext_low hlow]
  rfl

/-- **A backdoor that ends inside the last chunk of the address space** ends the loop too early. -/
theorem sendAtomicBdReq_short (h : Moving first last pos p id st)
    (hgen : At first last pos q n st.gen) (hcs : st.gen.chunkSize ≠ 0) (hfirst : first < 2 ^ 64)
    {b : Backdoor} (hb : findAt p.memBackdoors pos = some b) (hbds : Bounded p.memBackdoors)
    (hserves : b.Serves st.data pos) (hq : q = last) (hlast : last = 2 ^ 64)
    (hshort : b.reach pos < last) :
    ∃ p', p.sendAtomicBdReq mem id = .ok (true, p') ∧
      p'.moved = p.moved ++ [moveOf id first pos (b.reach pos)] := by
  have hspace := h.space
  have hpos := h.first_le
  have hzero : st.gen.nextAddr = 0 := by
    rw [hgen.nextAddr, hq, hlast, Nat.mod_self]
  have hleft : st.gen.sizeLeft = 0 := by
    rw [hgen.sizeLeft, hq, Nat.sub_self]
  obtain ⟨gen, hset, hgenleft⟩ : ∃ gen, st.gen.setNext (b.reach pos % 2 ^ 64) = .ok gen ∧
      gen.sizeLeft = 0 := by
    have hlow : decide (b.reach pos % 2 ^ 64 ≥ st.gen.nextAddr) = true := by
      rw [decide_eq_true_eq, hzero]
      exact Nat.zero_le _
    refine ⟨_, bind_eq_ok.mpr ⟨(), require_ok hlow,
      bind_eq_ok.mpr ⟨(), require_ok (decide_eq_true hcs), rfl⟩⟩, ?_⟩
    dsimp only
    rw [hleft, Nat.zero_sub]
  have hnext : gen.next.1 = false := by
    rw [ChunkGenerator.next, if_pos (by rw [ChunkGenerator.last, hgenleft]; rfl)]
  have hreach : pos ≤ b.reach pos := Nat.le_add_right _ _
  obtain ⟨p', hresp, hmoved⟩ : ∃ p',
      ((p.transfer st.cmd st.data (moveOf id first pos (b.reach pos))).setState id
        (some { st with gen := gen.next.2 })).handleResp id (b.reach pos - pos) 0 = .ok p' ∧
      p'.moved = p.moved ++ [moveOf id first pos (b.reach pos)] := by
    refine ⟨_, handleResp_more (setState_self _ _ _) ?_ ?_, rfl⟩
    · dsimp only
      rw [h.numBytes, h.totBytes]
      omega
    · dsimp only
      rw [h.totBytes]
      omega
  rw [sendAtomicBdReq_backdoor_eq mem h hgen.startAddr hgen.curAddr hfirst hb
    (findAt_spec hbds hb).1 hserves, min_eq_right hshort.le, hset]
  refine ⟨p', bind_eq_ok.mpr ⟨gen, rfl, bind_eq_ok.mpr ⟨p', hresp, ?_⟩⟩, hmoved⟩
  rw [hnext]
  rfl

theorem sendAction_ok {send : DmaPort → ℕ → Except DmaFault (Bool × DmaPort)} {rounds : ℕ}
    {p' : DmaPort} (h : sendAction send rounds p id = .ok p') :
    ∃ left, rounds = left + 1 ∧ ∃ done p₁, send p id = .ok (done, p₁) ∧
      if done then p₁ = p' else sendAction send left p₁ id = .ok p' := by
  cases rounds with
  | zero => cases h
  | succ left =>
    obtain ⟨⟨done, p₁⟩, hsend, hrest⟩ := bind_eq_ok.mp h
    refine ⟨left, rfl, done, p₁, hsend, ?_⟩
    cases done with
    | true => exact Except.ok.inj hrest
    | false => exact hrest

/-! ## What a run through backdoors shows -/

/-- The last chunk of the address space is in its upper half. -/
theorem high_of_boundary {k : ℕ} (hk : k < 64) (hend : boundary (2 ^ k) pos = 2 ^ 64) :
    2 ^ 63 ≤ pos := by
  have hclose := boundary_le_add (2 ^ k) pos
  have hchunk : 2 ^ k ≤ 2 ^ 63 := Nat.pow_le_pow_right (by omega) (by omega)
  omega

/-- **In the last chunk of the address space** a loop that ends found a chain of backdoors. -/
theorem chained_of_ok {k : ℕ} (hk : k < 64) (hfirst : first < 2 ^ 64) (hlast : last < 2 ^ 64)
    {rounds : ℕ} {p' : DmaPort} (h : Moving first last pos p id st) (hbds : Bounded p.memBackdoors)
    (hpending : p.pendingCount ≠ 0) (hcs : st.gen.chunkSize = 2 ^ k)
    (hgen : Beyond first last pos st.gen) (hlt : pos < last) (hend : boundary (2 ^ k) pos = 2 ^ 64)
    (hrun : sendAction (sendAtomicBdReq mem) rounds p id = .ok p') :
    Chained last p.memBackdoors pos := by
  induction rounds generalizing pos p st with
  | zero => cases hrun
  | succ rounds ih =>
    have hpos := h.first_le
    have hspace := h.space
    cases hb : findAt p.memBackdoors pos with
    | none =>
      -- a packet of the whole chunk is longer than the action
      have hhigh := high_of_boundary hk hend
      have hnone : p.memBackdoors.find? (·.contains st.gen.addr) = none := by
        rw [ChunkGenerator.addr, hgen.curAddr, ← Nat.mod_eq_of_lt (hlt.trans hlast)]
        exact hb
      have hfail := sendAtomicBdReq_over mem h (by rw [hgen.curSize]; omega)
        (by rw [hgen.curSize]; omega) hnone
      obtain ⟨-, -, done, p₁, hsend, -⟩ := sendAction_ok hrun
      rw [hfail] at hsend
      cases hsend
    | some b =>
      rcases Nat.lt_or_ge (b.reach pos) last with hmore | hdone
      · obtain ⟨gen, hgencs, hat, hround⟩ := sendAtomicBdReq_beyond mem hk.le hcs h hpending
          hgen hfirst hlt hlast hb hbds
        rw [min_eq_right hmore.le] at hat hround
        have hreach : pos < b.reach pos := (findAt_serves hbds hb hlt hlast st.data).2
        obtain ⟨hunaligned, hnext⟩ := last_chunk hk.le hend hreach (by omega)
        obtain ⟨hnextcs, hbeyond⟩ := hat.next_beyond hmore hlast hunaligned hnext
        rw [roundEnd_more hat hmore] at hround
        rw [sendAction_more hround] at hrun
        have hrest := ih (moving_afterRound h hreach.le hmore.le gen.next.2 p.memBackdoors)
          hbds hpending (hnextcs.trans hgencs) hbeyond hmore hnext hrun
        exact .more hb hmore hrest
      · exact .last hb hdone

/-- The generator has computed a chunk that reaches beyond the action. -/
theorem overrun_fails {r : ℕ} (hfirst : first < 2 ^ 64) (hlast : last < 2 ^ 64)
    (h : Moving first last r p id st) (hbds : Bounded p.memBackdoors)
    (hstart : st.gen.startAddr = first) (hcur : st.gen.curAddr = r) (hr : r < last)
    (hsize : r + st.gen.curSize < 2 ^ 64) (hover : last < r + st.gen.curSize)
    (hnext : last < st.gen.nextAddr) {rounds : ℕ} {p' : DmaPort} :
    sendAction (sendAtomicBdReq mem) rounds p id ≠ .ok p' := by
  intro hrun
  obtain ⟨-, -, done, p₁, hsend, -⟩ := sendAction_ok hrun
  have hmod : r % 2 ^ 64 = r := Nat.mod_eq_of_lt (by omega)
  cases hb : findAt p.memBackdoors r with
  | none =>
    have hnone : p.memBackdoors.find? (·.contains st.gen.addr) = none := by
      rw [ChunkGenerator.addr, hcur, ← hmod]
      exact hb
    rw [sendAtomicBdReq_over mem h (by omega) (by omega) hnone] at hsend
    cases hsend
  | some b =>
    rw [sendAtomicBdReq_low mem h hstart (hcur.trans hmod.symm) hfirst hb hbds
      (findAt_serves hbds hb hr hlast st.data).1
      (by rw [Nat.mod_eq_of_lt (by omega)]; omega)] at hsend
    cases hsend

/-- The chunk behind an unaligned end of a backdoor, if it reaches beyond the action. -/
theorem next_overrun {k r : ℕ} {g : ChunkGenerator}
    (h : At first last pos r (resumed (2 ^ k) last r) g) (hr : r < last)
    (hunaligned : r % 2 ^ k ≠ 0) (hover : last < boundary (2 ^ k) r)
    (hspace : boundary (2 ^ k) r < 2 ^ 64) :
    g.next.2.startAddr = first ∧ g.next.2.curAddr = r ∧
      r + g.next.2.curSize = boundary (2 ^ k) r ∧ g.next.2.nextAddr = boundary (2 ^ k) r := by
  have hmore : ¬ g.last = true := by
    rw [ChunkGenerator.last, h.sizeLeft, beq_iff_eq]
    omega
  have hsize : g.nextSize = boundary (2 ^ k) r - r := by
    rw [h.nextSize, resumed, if_neg hunaligned]
  have haddr : g.nextAddr = r := by
    rw [h.nextAddr]
    exact Nat.mod_eq_of_lt (by omega)
  rw [ChunkGenerator.next, if_neg hmore]
  refine ⟨h.startAddr, haddr, ?_, ?_⟩
  · dsimp only
    rw [hsize]
    omega
  · dsimp only
    rw [add64, haddr, hsize]
    omega

/-- **A loop that ends and moves all bytes** met steady backdoors. -/
theorem steady_of_ok {k : ℕ} (hk : k < 64) (hfirst : first < 2 ^ 64) (hlast : last ≤ 2 ^ 64)
    (hmem : ∀ m, ∀ b ∈ mem.backdoor m, b.stop < 2 ^ 64) {rounds : ℕ} {p' : DmaPort}
    (h : Moving first last pos p id st) (hbds : Bounded p.memBackdoors)
    (hpending : p.pendingCount ≠ 0) (hcs : st.gen.chunkSize = 2 ^ k)
    (hgen : At first last pos q (min (last - q) (2 ^ k)) st.gen) (hpq : pos < q) (hq : q ≤ last)
    (hrun : sendAction (sendAtomicBdReq mem) rounds p id = .ok p')
    (hsize : movedSize p'.moved = movedSize p.moved + (last - pos)) :
    Steady mem (2 ^ k) id st.data first last p.memBackdoors pos q := by
  have hkpos : 0 < 2 ^ k := Nat.two_pow_pos k
  induction rounds generalizing pos q p st with
  | zero => cases hrun
  | succ rounds ih =>
    have hpos := h.first_le
    have hspace := h.space
    cases hb : findAt p.memBackdoors pos with
    | none =>
      rcases hq.lt_or_eq with hlt | rfl
      · have hround := sendAtomicBdReq_packet mem h hpending hgen hfirst hpq hq hb
        rw [roundEnd_more hgen hlt] at hround
        rw [sendAction_more hround] at hrun
        obtain ⟨hnextcs, hnext⟩ := hgen.next_chunk hlt (min_le_left _ _) (by omega) (by omega)
        rw [hcs] at hnext hnextcs
        have hleft : ∀ bds, movedSize (p.afterRound id st (moveOf id first pos q)
            st.gen.next.2 bds).moved = movedSize p.moved + (q - pos) :=
          fun _ => movedSize_snoc _ _
        have hrest := ih (moving_afterRound h hpq.le hq st.gen.next.2 _)
          (hbds.record (hmem (moveOf id first pos q))) hpending hnextcs hnext (by omega)
          (by omega) hrun (by rw [hleft]; omega)
        exact .packet hb hlt hrest
      · exact .packet_last hb
    | some b =>
      have hserves : b.Serves st.data pos := by
        by_contra houtside
        obtain ⟨_, -, done, p₁, hsend, -⟩ := sendAction_ok hrun
        rw [sendAtomicBdReq_outside mem h hgen.curAddr hb houtside] at hsend
        cases hsend
      rcases Nat.lt_or_ge (b.reach pos) last with hmore | hdone
      · rcases Nat.lt_or_ge (b.reach pos) q with hbelow | hle
        · -- the backdoor ends inside the current chunk
          exfalso
          obtain ⟨_, -, done, p₁, hsend, hrest⟩ := sendAction_ok hrun
          rcases (hq.trans hlast).lt_or_eq with hqlt | hqeq
          · have hlow : min last (b.reach pos) % 2 ^ 64 < st.gen.nextAddr := by
              rw [hgen.nextAddr, min_eq_right hmore.le, Nat.mod_eq_of_lt hqlt,
                Nat.mod_eq_of_lt (hbelow.trans hqlt)]
              exact hbelow
            rw [sendAtomicBdReq_low mem h hgen.startAddr hgen.curAddr hfirst hb hbds hserves
              hlow] at hsend
            cases hsend
          · obtain ⟨p₂, hshort, hmoved⟩ := sendAtomicBdReq_short mem h hgen
              (hcs ▸ hkpos.ne') hfirst hb hbds hserves (by omega) (by omega) hmore
            rw [hshort, Except.ok.injEq, Prod.mk.injEq] at hsend
            obtain ⟨rfl, rfl⟩ := hsend
            rw [if_pos rfl] at hrest
            have hless : movedSize p'.moved = movedSize p.moved + (b.reach pos - pos) := by
              rw [← hrest, hmoved, movedSize_snoc]
              rfl
            omega
        · have hmin : q ≤ min last (b.reach pos) := le_min hq hle
          obtain ⟨hlap, hreach⟩ := same_lap hbds hb hpq hmin
          obtain ⟨gen, hgencs, hat, hround⟩ := sendAtomicBdReq_backdoor mem hk.le hcs h hpending
            hgen hfirst hpq hb (findAt_spec hbds hb).1 hserves hmin hlap
          rw [min_eq_right hmore.le] at hat hround
          rw [roundEnd_more hat hmore] at hround
          rw [sendAction_more hround] at hrun
          have hnow := moving_afterRound h hreach.le hmore.le gen.next.2 p.memBackdoors
          have hleft : movedSize (p.afterRound id st (moveOf id first pos (b.reach pos))
              gen.next.2 p.memBackdoors).moved = movedSize p.moved + (b.reach pos - pos) :=
            movedSize_snoc _ _
          by_cases hfits : b.reach pos % 2 ^ k = 0 ∨ boundary (2 ^ k) (b.reach pos) ≤ last
          · have hnonzero : 0 < resumed (2 ^ k) last (b.reach pos) := resumed_pos hmore
            have hchunk : resumed (2 ^ k) last (b.reach pos) ≤ last - b.reach pos :=
              resumed_le hfits
            obtain ⟨hnextcs, hnext⟩ := hat.next_chunk hmore hchunk (by omega) (by omega)
            rw [hgencs] at hnext hnextcs
            have hrest := ih hnow hbds hpending hnextcs hnext (by omega) (by omega) hrun
              (by omega)
            exact .backdoor hb hserves hmore hle hfits hrest
          · rw [not_or, Nat.not_le] at hfits
            obtain ⟨hunaligned, hover⟩ := hfits
            have hbound := boundary_le_space hk.le (hmore.trans_le hlast)
            rcases hbound.lt_or_eq with hinside | hend
            · obtain ⟨hstart, hcur, hchunk, hnext⟩ :=
                next_overrun hat hmore hunaligned hover hinside
              exact absurd hrun (overrun_fails mem hfirst (hover.trans hinside) hnow hbds hstart
                hcur hmore (by dsimp only; omega) (by dsimp only; omega)
                (by dsimp only; omega))
            · have hlast' : last < 2 ^ 64 := hend ▸ hover
              obtain ⟨hnextcs, hbeyond⟩ := hat.next_beyond hmore hlast' hunaligned hend
              have hrest := chained_of_ok mem hk hfirst hlast' hnow hbds hpending
                (hnextcs.trans hgencs) hbeyond hmore hend hrun
              exact .chained hb hserves hmore hle hunaligned hend hlast' hrest
      · exact .backdoor_last hb hserves hdone

end

/-! ## Equivalence -/

/-- Each byte of the request is moved once, to or from its place in the buffer. -/
def MovesOnce (r : Request) (p : DmaPort) : Prop :=
  (byteMoves p.moved).Perm ((List.range r.size).map fun i => (r.addr + i, i))

/-- **The action has the same effect by packets and through backdoors**: both end, both move each
byte once, and they leave the same bytes in the memory and in the buffers. -/
def SameEffect (mem : Memory) (cacheLineSize : ℕ) (bds : List Backdoor) (bytes : Bytes)
    (r : Request) : Prop :=
  ∃ p p', (create .atomic cacheLineSize bds bytes).dmaAction mem r .accepted = .ok p ∧
    (create .bypass cacheLineSize bds bytes).dmaAction mem r .accepted = .ok p' ∧
    MovesOnce r p ∧ MovesOnce r p' ∧ p'.bytes = p.bytes

section

variable {k : ℕ} {mem : Memory} {bds : List Backdoor} {bytes : Bytes} {r : Request}

/-- The port of a new device in the loop over its first action. -/
def looping (mode : Mode) (cacheLineSize : ℕ) (bds : List Backdoor) (bytes : Bytes) (r : Request)
    (gen : ChunkGenerator) : DmaPort :=
  { (create mode cacheLineSize bds bytes).started r (newState r gen) with transmitList := [] }

theorem dmaAction_atomic {gen : ChunkGenerator}
    (hgen : ChunkGenerator.create r.addr r.size (2 ^ k) = .ok gen) (hcur : gen.curSize ≠ 0) :
    (create .atomic (2 ^ k) bds bytes).dmaAction mem r .accepted =
      sendAction (sendAtomicReq mem) r.size (looping .atomic (2 ^ k) bds bytes r gen) 0 := by
  have hgen' : ChunkGenerator.create r.addr r.size
      (create .atomic (2 ^ k) bds bytes).cacheLineSize = .ok gen := hgen
  have hsend := sendDma_atomic mem
    (p := (create .atomic (2 ^ k) bds bytes).started r (newState r gen)) rfl rfl .accepted
  rw [dmaAction_eq .accepted hgen', hsend]
  exact sendOne_started r gen hcur

theorem dmaAction_bypass {gen : ChunkGenerator}
    (hgen : ChunkGenerator.create r.addr r.size (2 ^ k) = .ok gen) (hcur : gen.curSize ≠ 0) :
    (create .bypass (2 ^ k) bds bytes).dmaAction mem r .accepted =
      sendAction (sendAtomicBdReq mem) r.size (looping .bypass (2 ^ k) bds bytes r gen) 0 := by
  have hgen' : ChunkGenerator.create r.addr r.size
      (create .bypass (2 ^ k) bds bytes).cacheLineSize = .ok gen := hgen
  have hsend := sendDma_bypass mem
    (p := (create .bypass (2 ^ k) bds bytes).started r (newState r gen)) rfl rfl .accepted
  rw [dmaAction_eq .accepted hgen', hsend]
  exact sendOne_started r gen hcur

/-- A loop that covers the request has moved its bytes, and has the effect of one move. -/
theorem effect_of_carried {mode : Mode} {gen : ChunkGenerator} {p' : DmaPort}
    {ms : List DmaPacket} (hpos : 0 < r.size) (hspace : r.addr + r.size ≤ 2 ^ 64)
    (hcovers : Covers 0 r.addr r.addr (r.addr + r.size) ms)
    (hcarried : Carried 0 (newState r gen) (looping mode (2 ^ k) bds bytes r gen) p' ms) :
    MovesOnce r p' ∧ p'.bytes = Bytes.transfer bytes r.cmd r.data
      (moveOf 0 r.addr r.addr (r.addr + r.size)) := by
  have hmoved : p'.moved = ms := by
    rw [hcarried.eq]
    exact List.nil_append ms
  have hbytes : p'.bytes = transferAll bytes r.cmd r.data ms := by
    rw [hcarried.eq]
    rfl
  constructor
  · have hall := hcovers.byteMoves le_rfl hspace
    simp only [Nat.add_sub_cancel_left, Nat.sub_self, Nat.zero_add] at hall
    rw [MovesOnce, hmoved, hall]
  · rw [hbytes]
    exact hcovers.transferAll bytes r.cmd r.data le_rfl (by omega) hspace

/-- **Backdoor DMA equals packet DMA** exactly when the first chunk of the action is computed
correctly and the backdoors that it meets are steady. -/
theorem backdoor_equals_packet_iff (hk : k < 64) (hmem : ∀ m, ∀ b ∈ mem.backdoor m, b.stop < 2 ^ 64)
    (hbds : Bounded bds) (hpos : 0 < r.size) (hsize : r.size < 2 ^ 31)
    (hspace : r.addr + r.size ≤ 2 ^ 64) :
    SameEffect mem (2 ^ k) bds bytes r ↔
      Regular (2 ^ k) r.addr (r.addr + r.size) ∧
        Steady mem (2 ^ k) 0 r.data r.addr (r.addr + r.size) bds r.addr
          (firstEnd (2 ^ k) r.addr (r.addr + r.size)) := by
  have haddr : r.addr < 2 ^ 64 := by omega
  have hlast : r.addr < r.addr + r.size := by omega
  have hrounds : r.addr + r.size - r.addr ≤ r.size := by omega
  have hmoving : ∀ mode gen, Moving r.addr (r.addr + r.size) r.addr
      (looping mode (2 ^ k) bds bytes r gen) 0 (newState r gen) :=
    fun _ gen => moving_started r gen (by omega)
  have hpending : ∀ mode gen, (looping mode (2 ^ k) bds bytes r gen).pendingCount ≠ 0 :=
    fun _ _ => Nat.one_ne_zero
  constructor
  · rintro ⟨p, p', hp, hp', -, hmoves, -⟩
    have hreg : Regular (2 ^ k) r.addr (r.addr + r.size) := by
      by_contra hirregular
      obtain ⟨gen, hgen, -, hbeyond⟩ := create_irregular hk haddr (by omega) hirregular
      rw [Regular, Classical.not_imp] at hirregular
      have hchunk := hbeyond.curSize
      have hhigh := high_of_boundary hk hirregular.1
      have hfail := sendAtomicReq_over mem (hmoving .atomic gen)
        (by dsimp only [newState]; omega) (by dsimp only [newState]; omega)
      rw [dmaAction_atomic hgen (by omega)] at hp
      obtain ⟨_, -, _, _, hsend, -⟩ := sendAction_ok hp
      rw [hfail] at hsend
      cases hsend
    obtain ⟨gen, hgen, hgencs, hend, hat⟩ := create_at hk.le haddr (by omega) hreg
    have hlt := lt_firstEnd (k := k) haddr hlast
    rw [dmaAction_bypass hgen (by rw [hat.curSize]; omega)] at hp'
    have hlength := hmoves.length_eq
    rw [byteMoves_length, List.length_map, List.length_range] at hlength
    refine ⟨hreg, steady_of_ok mem hk haddr hspace hmem (hmoving .bypass gen) hbds (hpending _ gen)
      hgencs hat hlt hend hp' ?_⟩
    rw [hlength]
    exact (Nat.zero_add _).symm.trans (congrArg _ (Nat.add_sub_cancel_left _ _).symm)
  · rintro ⟨hreg, hsteady⟩
    obtain ⟨gen, hgen, hgencs, hend, hat⟩ := create_at hk.le haddr (by omega) hreg
    have hlt := lt_firstEnd (k := k) haddr hlast
    have hcur : gen.curSize ≠ 0 := by
      rw [hat.curSize]
      omega
    obtain ⟨p, ms, hrun, hcovers, hcarried⟩ := packets_carried mem haddr hrounds
      (hmoving .atomic gen) (hpending _ gen) hgencs hat hlt hend
    obtain ⟨p', ms', hrun', hcovers', hcarried'⟩ := backdoors_carried mem hk.le haddr hmem hsteady
      hbds hrounds (hmoving .bypass gen) rfl rfl (hpending _ gen) hgencs hat hlt hend
    obtain ⟨hmoves, hbytes⟩ := effect_of_carried hpos hspace hcovers hcarried
    obtain ⟨hmoves', hbytes'⟩ := effect_of_carried hpos hspace hcovers' hcarried'
    exact ⟨p, p', (dmaAction_atomic hgen hcur).trans hrun, (dmaAction_bypass hgen hcur).trans hrun',
      hmoves, hmoves', hbytes'.trans hbytes.symm⟩

end

/-- An action of which the middle is behind a backdoor. -/
theorem backdoor_equals_packet_middle :
    SameEffect plainMemory (2 ^ 6) [⟨0x1080, 0x10c0⟩] zeros ⟨.read, 0x1010, 300, true, true, 0⟩ :=
  (backdoor_equals_packet_iff (by decide) (fun _ _ hb => by cases hb)
    (List.forall_mem_singleton.mpr (by decide)) (by decide) (by decide) (by decide)).mpr
    ⟨by decide, .packet (by decide) (by decide) (.packet (by decide) (by decide)
      (.backdoor (b := ⟨0x1080, 0x10c0⟩) (by decide) (by decide) (by decide) (by decide)
        (.inl (by decide))
        (.packet (by decide) (by decide) (.packet_last (by decide)))))⟩

/-- A backdoor that ends inside the first chunk of an action fails the assertion of `setNext`.  One
that ends in a chunk that reaches beyond the action makes the generator ask for too many bytes. -/
theorem backdoor_fails :
    ¬ SameEffect plainMemory (2 ^ 6) [⟨0, 32⟩] zeros ⟨.read, 0, 40, true, true, 0⟩ ∧
      ¬ SameEffect plainMemory (2 ^ 6) [⟨0, 70⟩] zeros ⟨.read, 0, 104, true, true, 0⟩ := by
  have hlow : ((create .bypass (2 ^ 6) [⟨0, 32⟩] zeros).dmaAction plainMemory
      ⟨.read, 0, 40, true, true, 0⟩ .accepted).toOption.isSome = false := by decide +kernel
  have hover : ((create .bypass (2 ^ 6) [⟨0, 70⟩] zeros).dmaAction plainMemory
      ⟨.read, 0, 104, true, true, 0⟩ .accepted).toOption.isSome = false := by decide +kernel
  constructor
  · rintro ⟨p, p', -, hp', -⟩
    rw [hp'] at hlow
    cases hlow
  · rintro ⟨p, p', -, hp', -⟩
    rw [hp'] at hover
    cases hover

end DmaPort

end Gem5.Dma
