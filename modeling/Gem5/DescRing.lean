/-
# The descriptor ring discipline

What the fetches and writebacks of a descriptor cache do to the ring, over every
interleaving with the driver: descriptors are fetched and written back once, in order, in
their own slots, the indices follow the counts, and no assertion fails.
-/
import Gem5.DescCache

namespace Gem5.IGbE

open Runs RingIndex

variable {T : Type}

/-! ## The invariant -/

/-- **How the cache, the registers and the ring represent the history.** -/
structure Inv (w : World T) : Prop where
  len_pos : 0 < w.regs.len
  ringLength : w.ring.length = w.regs.len
  head : w.regs.head = w.completed % w.regs.len
  tail : w.regs.tail = w.given.length % w.regs.len
  cachePnt : w.cache.cachePnt = w.fetched.length % w.regs.len
  completed_le : w.completed ≤ w.consumed.length
  consumed_le : w.consumed.length ≤ w.fetched.length
  /-- what is being fetched was handed over, what was handed over is at most one lap -/
  fetching : w.fetched.length + w.cache.curFetching ≤ w.given.length
  outstanding : w.given.length ≤ w.completed + w.regs.len
  room : w.fetched.length + w.cache.curFetching ≤ w.completed + w.cache.size
  wbOut_le : w.completed + w.cache.wbOut ≤ w.consumed.length
  /-- neither transfer reaches over the end of the ring -/
  fetchEnd : w.fetched.length % w.regs.len + w.cache.curFetching ≤ w.regs.len
  wbEnd : w.completed % w.regs.len + w.cache.wbOut ≤ w.regs.len
  fetchIdle : w.cache.curFetching = 0 ↔ w.cache.fetch = .idle
  wbIdle : w.cache.wbOut = 0 ↔ w.cache.wb = .idle
  used : w.cache.usedCache = (w.consumed.map Prod.snd).drop w.completed
  unused : w.cache.unusedCache = (w.given.take w.fetched.length).drop w.consumed.length
  consumed : w.consumed.map Prod.fst <+: w.given
  fetched : InSlots w.regs.len w.fetched w.given
  written : InSlots w.regs.len w.written (w.consumed.map Prod.snd)
  writtenLength : w.written.length = w.completed + if w.cache.wb = .moved then w.cache.wbOut else 0
  holds : Holds w.ring w.given w.fetched.length
  fetchBuf : w.cache.fetch = .moved →
    w.cache.fetchBuf = (w.given.drop w.fetched.length).take w.cache.curFetching
  wbBuf : w.cache.wb ≠ .idle → w.cache.wb ≠ .delayed →
    w.cache.wbBuf = w.cache.usedCache.take w.cache.wbOut

/-- A card that has not done anything. -/
theorem start_inv (size : ℕ) {ring : List T} (hpos : 0 < ring.length) : Inv (start size ring) where
  len_pos := hpos
  ringLength := rfl
  head := rfl
  tail := rfl
  cachePnt := rfl
  completed_le := le_rfl
  consumed_le := le_rfl
  fetching := le_rfl
  outstanding := Nat.zero_le _
  room := Nat.zero_le _
  wbOut_le := le_rfl
  fetchEnd := Nat.zero_le _
  wbEnd := Nat.zero_le _
  fetchIdle := ⟨fun _ => rfl, fun _ => rfl⟩
  wbIdle := ⟨fun _ => rfl, fun _ => rfl⟩
  used := rfl
  unused := rfl
  consumed := List.prefix_rfl
  fetched := inSlots_nil _ _
  written := inSlots_nil _ _
  writtenLength := rfl
  holds := holds_of_le le_rfl
  fetchBuf := nofun
  wbBuf := fun h => absurd rfl h

namespace Inv

variable {w : World T}

/-! ## Counting -/

theorem usedLength (h : Inv w) : w.completed + w.cache.usedCache.length = w.consumed.length := by
  have hle := h.completed_le
  rw [h.used, List.length_drop, List.length_map]
  omega

theorem unusedLength (h : Inv w) :
    w.consumed.length + w.cache.unusedCache.length = w.fetched.length := by
  have hle := h.consumed_le
  have hfetch := h.fetching
  rw [h.unused, List.length_drop, List.length_take]
  omega

theorem head_lt (h : Inv w) : w.regs.head < w.regs.len := h.head ▸ Nat.mod_lt _ h.len_pos

theorem cachePnt_lt (h : Inv w) : w.cache.cachePnt < w.regs.len :=
  h.cachePnt ▸ Nat.mod_lt _ h.len_pos

theorem wbOut_le_used (h : Inv w) : w.cache.wbOut ≤ w.cache.usedCache.length := by
  have hwb := h.wbOut_le
  have hused := h.usedLength
  omega

/-- **A fetch** stays within what was handed over, the lap and the cache. -/
theorem toFetch_le (h : Inv w) (hidle : w.cache.curFetching = 0) :
    w.fetched.length + w.cache.toFetch w.regs ≤ w.given.length ∧
      w.fetched.length % w.regs.len + w.cache.toFetch w.regs ≤ w.regs.len ∧
      w.fetched.length + w.cache.toFetch w.regs ≤ w.completed + w.cache.size := by
  have hfetch := h.fetching
  have hused := h.usedLength
  have hunused := h.unusedLength
  have hroom := h.room
  have hlt := h.cachePnt_lt
  have htail : w.regs.tail < w.regs.len := h.tail ▸ Nat.mod_lt _ h.len_pos
  unfold DescCache.toFetch
  by_cases hge : w.regs.tail ≥ w.cache.cachePnt
  · have hstay := add_sub_mod_le (n := w.regs.len) (by omega : w.fetched.length ≤ w.given.length)
      (h.cachePnt ▸ h.tail ▸ hge)
    rw [if_pos hge]
    rw [← h.tail, ← h.cachePnt] at hstay
    rw [← h.cachePnt]
    omega
  · have hlap := add_end_le (n := w.regs.len) (by omega : w.fetched.length ≤ w.given.length)
      (h.cachePnt ▸ h.tail ▸ not_le.mp hge)
    rw [if_neg hge]
    rw [← h.cachePnt] at hlap
    rw [← h.cachePnt]
    omega

theorem alignDown_le (max_to_wb wbAlignment : ℕ) :
    DescCache.alignDown max_to_wb wbAlignment ≤ max_to_wb := Nat.and_le_left

/-- **A writeback** stays within the used descriptors and the lap. -/
theorem toWrite_le (h : Inv w) (aMask : ℕ) :
    w.cache.toWrite w.regs aMask ≤ w.cache.usedCache.length ∧
      w.regs.head + w.cache.toWrite w.regs aMask ≤ w.regs.len := by
  have hlt := h.head_lt
  have halign := alignDown_le w.cache.usedCache.length aMask
  unfold DescCache.toWrite
  cases hend : w.cache.reachesEnd w.regs with
  | true =>
    have hge : w.cache.usedCache.length + w.regs.head ≥ w.regs.len := of_decide_eq_true hend
    rw [if_pos rfl]
    omega
  | false =>
    have hless := of_decide_eq_false hend
    rw [if_neg Bool.false_ne_true]
    split <;> omega

/-- The driver fills slots that have come back to it. -/
theorem handOver (h : Inv w) {descs : List T} (hadm : Allowed w (.handOver descs)) :
    Inv (w.handOver descs) := by
  have hroom : w.given.length + descs.length ≤ w.completed + w.regs.len := hadm
  have hle := h.completed_le
  have hcons := h.consumed_le
  have hfetch := h.fetching
  exact { h with
    ringLength := (length_pushAll _ _ _).trans h.ringLength
    tail := by
      show (w.regs.tail + descs.length) % w.regs.len = (w.given ++ descs).length % w.regs.len
      rw [h.tail, Nat.mod_add_mod, List.length_append]
    fetching := by
      simp only [World.handOver, List.length_append]
      omega
    outstanding := by
      simp only [World.handOver, List.length_append]
      omega
    unused := by
      simp only [World.handOver]
      rw [List.take_append_of_le_length (by omega)]
      exact h.unused
    consumed := h.consumed.trans (List.prefix_append _ _)
    fetched := h.fetched.append_right descs
    holds := by
      have hpush : Holds (pushAll w.ring (w.given.length % w.ring.length) descs)
          (w.given ++ descs) w.fetched.length :=
        h.holds.pushAll (by rw [h.ringLength]; omega)
      rw [h.ringLength, ← h.tail] at hpush
      exact hpush
    fetchBuf := fun hmoved => by
      simp only [World.handOver]
      rw [List.drop_append_of_le_length (by omega),
        List.take_append_of_le_length (by rw [List.length_drop]; omega)]
      exact h.fetchBuf hmoved }

/-! ## Fetches -/

/-- **`fetchDescriptors`** -/
theorem fetchDescriptors (h : Inv w) :
    ∃ c, w.cache.fetchDescriptors w.regs = .ok c ∧ Inv { w with cache := c } ∧
      (w.cache.curFetching = 0 → c.curFetching = w.cache.toFetch w.regs) := by
  by_cases hidle : w.cache.curFetching = 0
  · by_cases hnone : w.cache.toFetch w.regs = 0
    · refine ⟨w.cache, ?_, h, fun _ => hidle.trans hnone.symm⟩
      rw [DescCache.fetchDescriptors, if_neg (not_not.mpr hidle), if_pos hnone]
    · obtain ⟨hgiven, hend, hroom⟩ := h.toFetch_le hidle
      refine ⟨{ w.cache with curFetching := w.cache.toFetch w.regs, fetch := .delayed }, ?_, ?_,
        fun _ => rfl⟩
      · rw [DescCache.fetchDescriptors, if_neg (not_not.mpr hidle), if_neg hnone]
        refine bind_eq_ok.mpr ⟨(), require_ok ?_, rfl⟩
        rw [h.fetchIdle.mp hidle]
        rfl
      · exact { h with
          fetching := hgiven
          room := hroom
          fetchEnd := hend
          fetchIdle := ⟨fun h0 => absurd h0 hnone, nofun⟩
          fetchBuf := nofun }
  · refine ⟨w.cache, ?_, h, fun h0 => absurd h0 hidle⟩
    rw [DescCache.fetchDescriptors, if_pos hidle]

/-- **`fetchDescriptors1`** -/
theorem fetchDescriptors1 (h : Inv w) (hdelayed : w.cache.fetch = .delayed) (running : Bool) :
    ∃ c, w.cache.fetchDescriptors1 running = .ok c ∧ Inv { w with cache := c } := by
  cases running with
  | false => exact ⟨w.cache, rfl, h⟩
  | true =>
    have hcur : w.cache.curFetching ≠ 0 := fun h0 =>
      nomatch hdelayed.symm.trans (h.fetchIdle.mp h0)
    refine ⟨{ w.cache with fetch := .moving },
      bind_eq_ok.mpr ⟨(), require_ok (decide_eq_true hcur), rfl⟩, ?_⟩
    exact { h with
      fetchIdle := ⟨fun h0 => absurd h0 hcur, nofun⟩
      fetchBuf := nofun }

/-- The block of a fetch is the next descriptors handed over. -/
theorem fetchBlock_eq (h : Inv w) :
    w.fetchBlock = (w.given.drop w.fetched.length).take w.cache.curFetching := by
  rw [World.fetchBlock, h.cachePnt, ← h.ringLength]
  exact h.holds.block (h.ringLength ▸ h.fetchEnd) h.fetching

/-- The DMA of a fetch. -/
theorem fetchDma (h : Inv w) (hmoving : w.cache.fetch = .moving) : Inv w.fetchDma := by
  have hcur : w.cache.curFetching ≠ 0 := fun h0 => nomatch hmoving.symm.trans (h.fetchIdle.mp h0)
  exact { h with
    fetchIdle := ⟨fun h0 => absurd h0 hcur, nofun⟩
    fetchBuf := fun _ => h.fetchBlock_eq }

/-- **`fetchComplete`** -/
theorem fetchComplete (h : Inv w) (hmoved : w.cache.fetch = .moved) :
    ∃ w', w.fetchComplete = .ok w' ∧ Inv w' := by
  have hend : w.cache.cachePnt + w.cache.curFetching ≤ w.regs.len := h.cachePnt ▸ h.fetchEnd
  have hcons := h.consumed_le
  have hfetch := h.fetching
  have hblock : w.cache.fetchBuf.take w.cache.curFetching =
      (w.given.drop w.fetched.length).take w.cache.curFetching := by
    rw [h.fetchBuf hmoved, List.take_take, min_self]
  have hlength : ((w.given.drop w.fetched.length).take w.cache.curFetching).length =
      w.cache.curFetching := by
    rw [List.length_take, List.length_drop]
    omega
  have htake : w.consumed.length ≤ (w.given.take w.fetched.length).length := by
    rw [List.length_take]
    omega
  refine ⟨_, bind_eq_ok.mpr ⟨_, bind_eq_ok.mpr ⟨(), require_ok (decide_eq_true hend), rfl⟩, rfl⟩,
    ?_⟩
  rw [hblock]
  have hcount : (w.fetched ++ ((w.given.drop w.fetched.length).take w.cache.curFetching).zipIdx
      w.cache.cachePnt).length = w.fetched.length + w.cache.curFetching := by
    rw [List.length_append, List.length_zipIdx, hlength]
  have hpnt : (w.fetched.length + w.cache.curFetching) % w.regs.len =
      if w.cache.cachePnt + w.cache.curFetching = w.regs.len then 0
      else w.cache.cachePnt + w.cache.curFetching := by
    rw [h.cachePnt]
    exact add_mod_of_le h.fetchEnd
  exact { h with
    cachePnt := by
      rw [hcount]
      exact hpnt.symm
    consumed_le := by
      rw [hcount]
      exact hcons.trans (Nat.le_add_right _ _)
    fetching := by
      rw [hcount]
      exact hfetch
    room := by
      rw [hcount]
      exact h.room
    fetchEnd := by
      rw [hcount]
      exact (Nat.mod_lt _ h.len_pos).le
    fetchIdle := ⟨fun _ => rfl, fun _ => rfl⟩
    unused := by
      rw [hcount, List.take_add, List.drop_append_of_le_length htake]
      exact congrArg (· ++ _) h.unused
    fetched := by
      have hslots := h.fetched.append_block
        (List.take_prefix w.cache.curFetching (w.given.drop w.fetched.length))
        (hlength.symm ▸ h.fetchEnd)
      rw [← h.cachePnt] at hslots
      exact hslots
    holds := by
      rw [hcount]
      exact h.holds.mono (Nat.le_add_right _ _)
    fetchBuf := nofun }

/-! ## Use -/

/-- The oldest unused descriptor is the next one that was handed over. -/
theorem unused_head (h : Inv w) :
    w.cache.unusedCache.head? = none ∨
      w.cache.unusedCache.head? = w.given[(w.consumed.map Prod.fst).length]? := by
  rw [h.unused, List.head?_drop, List.length_map]
  by_cases hlt : w.consumed.length < w.fetched.length
  · exact .inr (List.getElem?_take_of_lt hlt)
  · refine .inl (List.getElem?_eq_none ?_)
    rw [List.length_take]
    omega

/-- A descriptor is used. -/
theorem use (h : Inv w) (hunused : w.cache.unusedCache ≠ []) (desc : T) : Inv (w.use desc) := by
  obtain ⟨d, rest, hcons⟩ := List.exists_cons_of_ne_nil hunused
  have hlength := h.unusedLength
  have hle := h.completed_le
  have hwb := h.wbOut_le_used
  have hhead : w.given[(w.consumed.map Prod.fst).length]? = some d := by
    rcases h.unused_head with hnone | hsome
    · rw [hcons] at hnone
      exact nomatch hnone
    · rw [← hsome, hcons]
      rfl
  rw [hcons, List.length_cons] at hlength
  have hlog : (w.use desc).consumed = w.consumed ++ [(d, desc)] := by
    rw [World.use, hcons]
    rfl
  have hcount : (w.use desc).consumed.length = w.consumed.length + 1 := by
    rw [hlog, List.length_append, List.length_singleton]
  have hafter : (w.use desc).consumed.map Prod.snd = w.consumed.map Prod.snd ++ [desc] := by
    rw [hlog, List.map_append, List.map_singleton]
  exact { h with
    completed_le := by
      rw [hcount]
      exact hle.trans (Nat.le_succ _)
    consumed_le := by
      rw [hcount]
      exact (by omega : w.consumed.length + 1 ≤ w.fetched.length)
    wbOut_le := by
      rw [hcount]
      exact h.wbOut_le.trans (Nat.le_succ _)
    used := by
      have hdrop : w.completed ≤ (w.consumed.map Prod.snd).length := by
        rw [List.length_map]
        exact hle
      rw [hafter]
      show w.cache.usedCache ++ [desc] = (w.consumed.map Prod.snd ++ [desc]).drop w.completed
      rw [List.drop_append_of_le_length hdrop, ← h.used]
    unused := by
      rw [hcount]
      show w.cache.unusedCache.tail = (w.given.take w.fetched.length).drop (w.consumed.length + 1)
      rw [h.unused, List.tail_drop]
    consumed := by
      have hnext := prefix_append_next h.consumed
      rw [hhead] at hnext
      rw [hlog, List.map_append]
      exact hnext
    written := by
      rw [hafter]
      exact h.written.append_right [desc]
    wbBuf := fun hidle hdelayed => by
      show w.cache.wbBuf = (w.cache.usedCache ++ [desc]).take w.cache.wbOut
      rw [List.take_append_of_le_length hwb]
      exact h.wbBuf hidle hdelayed }

/-! ## Writebacks -/

/-- Asking for more changes nothing that counts. -/
theorem rearm (h : Inv w) (moreToWb : Bool) (wbAlignment : ℕ) :
    Inv { w with cache := { w.cache with moreToWb := moreToWb, wbAlignment := wbAlignment } } :=
  { h with }

/-- **`writeback`** -/
theorem writeback (h : Inv w) (aMask : ℕ) :
    ∃ c, w.cache.writeback w.regs aMask = .ok c ∧ Inv { w with cache := c } ∧
      (w.cache.wbOut = 0 → c.wbOut = w.cache.toWrite w.regs aMask) := by
  by_cases hidle : w.cache.wbOut = 0
  · have hwb := h.wbIdle.mp hidle
    obtain ⟨hused, hend⟩ := h.toWrite_le aMask
    by_cases hnone : w.cache.toWrite w.regs aMask = 0
    · refine ⟨_, ?_, h.rearm (w.cache.reachesEnd w.regs) aMask, fun _ => hidle.trans hnone.symm⟩
      rw [DescCache.writeback, if_neg (not_not.mpr hidle), if_pos hnone]
    · let c := { w.cache with
        moreToWb := w.cache.reachesEnd w.regs
        wbAlignment := aMask
        wbOut := w.cache.toWrite w.regs aMask
        wb := .delayed }
      refine ⟨c, ?_, ?_, fun _ => rfl⟩
      · rw [DescCache.writeback, if_neg (not_not.mpr hidle), if_neg hnone]
        refine bind_eq_ok.mpr ⟨(), require_ok ?_, rfl⟩
        rw [hwb]
        rfl
      · have hlength := h.usedLength
        have hwritten := h.writtenLength
        rw [hidle, ite_self, Nat.add_zero] at hwritten
        exact { h with
          wbOut_le := by
            show w.completed + w.cache.toWrite w.regs aMask ≤ w.consumed.length
            omega
          wbEnd := h.head ▸ hend
          wbIdle := ⟨fun h0 => absurd h0 hnone, nofun⟩
          writtenLength := hwritten
          wbBuf := fun _ hdelayed => absurd rfl hdelayed }
  · by_cases hless : aMask < w.cache.wbAlignment
    · refine ⟨_, ?_, h.rearm true aMask, fun h0 => absurd h0 hidle⟩
      rw [DescCache.writeback, if_pos hidle, if_pos hless]
    · refine ⟨w.cache, ?_, h, fun h0 => absurd h0 hidle⟩
      rw [DescCache.writeback, if_pos hidle, if_neg hless]

/-- **`writeback1`** -/
theorem writeback1 (h : Inv w) (hdelayed : w.cache.wb = .delayed) (running : Bool) :
    ∃ c, w.cache.writeback1 running = .ok c ∧ Inv { w with cache := c } := by
  cases running with
  | false => exact ⟨w.cache, rfl, h⟩
  | true =>
    have hout : w.cache.wbOut ≠ 0 := fun h0 => nomatch hdelayed.symm.trans (h.wbIdle.mp h0)
    have hwritten := h.writtenLength
    rw [hdelayed] at hwritten
    refine ⟨{ w.cache with wbBuf := w.cache.usedCache.take w.cache.wbOut, wb := .moving },
      bind_eq_ok.mpr ⟨(), require_ok (decide_eq_true h.wbOut_le_used),
        bind_eq_ok.mpr ⟨(), require_ok (decide_eq_true hout), rfl⟩⟩, ?_⟩
    exact { h with
      wbIdle := ⟨fun h0 => absurd h0 hout, nofun⟩
      writtenLength := hwritten
      wbBuf := fun _ _ => rfl }

/-- **The DMA of a writeback** writes used descriptors to their own slots. -/
theorem wbDma (h : Inv w) (hmoving : w.cache.wb = .moving) : Inv w.wbDma := by
  have hout : w.cache.wbOut ≠ 0 := fun h0 => nomatch hmoving.symm.trans (h.wbIdle.mp h0)
  have hbuf : w.cache.wbBuf = w.cache.usedCache.take w.cache.wbOut :=
    h.wbBuf (by rw [hmoving]; exact nofun) (by rw [hmoving]; exact nofun)
  have hlength : w.cache.wbBuf.length = w.cache.wbOut := by
    rw [hbuf, List.length_take, min_eq_left h.wbOut_le_used]
  have hwritten : w.written.length = w.completed := by
    have := h.writtenLength
    rw [hmoving] at this
    exact this
  have hwb := h.wbOut_le
  have hcons := h.consumed_le
  exact { h with
    ringLength := (length_writeBlock _ _ _).trans h.ringLength
    wbIdle := ⟨fun h0 => absurd h0 hout, nofun⟩
    written := by
      have hblock : w.cache.wbBuf <+: (w.consumed.map Prod.snd).drop w.written.length := by
        rw [hbuf, hwritten, ← h.used]
        exact List.take_prefix _ _
      have hslots := h.written.append_block hblock (by rw [hwritten, hlength]; exact h.wbEnd)
      rw [hwritten, ← h.head] at hslots
      exact hslots
    writtenLength := by
      show (w.written ++ w.cache.wbBuf.zipIdx w.regs.head).length = _
      rw [List.length_append, List.length_zipIdx, hwritten, hlength]
      rfl
    holds := by
      have hdead : Holds (writeBlock w.ring (w.completed % w.ring.length) w.cache.wbBuf)
          w.given w.fetched.length :=
        h.holds.writeBlock (by rw [h.ringLength, hlength]; exact h.wbEnd) (by omega)
          (by rw [h.ringLength]; exact h.outstanding)
      rw [h.ringLength, ← h.head] at hdead
      exact hdead
    wbBuf := fun _ _ => hbuf }

/-- The written descriptors leave the cache, and the head moves behind them. -/
theorem wbDone (h : Inv w) (hmoved : w.cache.wb = .moved) :
    Inv { w with
      cache := w.cache.wbDone
      regs := { w.regs with head := w.cache.headAfter w.regs }
      completed := w.completed + w.cache.wbOut } := by
  have hwb := h.wbOut_le
  have hlength := h.usedLength
  have hroom := h.room
  have hout := h.outstanding
  have hwritten := h.writtenLength
  rw [hmoved, if_pos rfl] at hwritten
  have hend := h.wbEnd
  have hhead : w.cache.headAfter w.regs = (w.completed + w.cache.wbOut) % w.regs.len := by
    rw [add_mod_of_le hend, DescCache.headAfter, h.head]
    split <;> split <;> omega
  exact { h with
    head := hhead
    completed_le := hwb
    outstanding := by
      show w.given.length ≤ w.completed + w.cache.wbOut + w.regs.len
      omega
    room := by
      show w.fetched.length + w.cache.curFetching ≤ w.completed + w.cache.wbOut + w.cache.size
      omega
    wbOut_le := hwb
    wbEnd := (Nat.mod_lt _ h.len_pos).le
    wbIdle := ⟨fun _ => rfl, fun _ => rfl⟩
    used := by
      show w.cache.usedCache.drop w.cache.wbOut = _
      rw [h.used, List.drop_drop]
    writtenLength := hwritten
    wbBuf := fun hidle => absurd rfl hidle }

/-- **`wbComplete`** -/
theorem wbComplete (h : Inv w) (hmoved : w.cache.wb = .moved) (fetchNow : Bool) :
    ∃ w', w.wbComplete fetchNow = .ok w' ∧ Inv w' := by
  have hdone := h.wbDone hmoved
  obtain ⟨c, hc, hmore⟩ : ∃ c,
      w.cache.wbDone.wbMore { w.regs with head := w.cache.headAfter w.regs } = .ok c ∧
        Inv { w with
          cache := c
          regs := { w.regs with head := w.cache.headAfter w.regs }
          completed := w.completed + w.cache.wbOut } := by
    unfold DescCache.wbMore
    split
    · obtain ⟨c, hc, hinv, -⟩ := (hdone.rearm false w.cache.wbAlignment).writeback
        w.cache.wbAlignment
      exact ⟨c, hc, hinv⟩
    · exact ⟨_, rfl, hdone⟩
  have hused := require_ok (e := Fault.noUsed) (decide_eq_true h.wbOut_le_used)
  cases fetchNow with
  | false =>
    exact ⟨_, bind_eq_ok.mpr ⟨_, bind_eq_ok.mpr ⟨(), hused, bind_eq_ok.mpr ⟨c, hc, rfl⟩⟩, rfl⟩,
      hmore⟩
  | true =>
    obtain ⟨c', hc', hfetch, -⟩ := hmore.fetchDescriptors
    exact ⟨_, bind_eq_ok.mpr ⟨_, bind_eq_ok.mpr ⟨(), hused, bind_eq_ok.mpr ⟨c, hc,
      bind_eq_ok.mpr ⟨c', hc', rfl⟩⟩⟩, rfl⟩, hfetch⟩

/-! ## Steps -/

theorem update_total {c : Except Fault (DescCache T)}
    (h : ∃ c', c = .ok c' ∧ Inv { w with cache := c' }) :
    ∃ w', w.update c = .ok w' ∧ Inv w' := by
  obtain ⟨c', hc, hinv⟩ := h
  exact ⟨_, bind_eq_ok.mpr ⟨c', hc, rfl⟩, hinv⟩

/-- **Every allowed step succeeds and keeps the invariant.** -/
theorem step_total (h : Inv w) {a : Action T} (hadm : Allowed w a) :
    ∃ w', step w a = .ok w' ∧ Inv w' := by
  cases a with
  | handOver descs => exact ⟨_, rfl, h.handOver hadm⟩
  | fetchDescriptors =>
    obtain ⟨c, hc, hinv, -⟩ := h.fetchDescriptors
    exact update_total ⟨c, hc, hinv⟩
  | fetchDescriptors1 running => exact update_total (h.fetchDescriptors1 hadm running)
  | fetchDma => exact ⟨_, rfl, h.fetchDma hadm⟩
  | fetchComplete => exact h.fetchComplete hadm
  | use desc => exact ⟨_, rfl, h.use hadm desc⟩
  | writeback aMask =>
    obtain ⟨c, hc, hinv, -⟩ := h.writeback aMask
    exact update_total ⟨c, hc, hinv⟩
  | writeback1 running => exact update_total (h.writeback1 hadm running)
  | wbDma => exact ⟨_, rfl, h.wbDma hadm⟩
  | wbComplete fetchNow => exact h.wbComplete hadm fetchNow

end Inv

/-! ## Runs -/

end Gem5.IGbE
