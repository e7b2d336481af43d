/-
# The skid buffers of decode

What decode holds of a thread is bounded by what fetch can send while it does not know yet that the
thread is blocked: the slots on the way to decode and the cycles until the block signal arrives,
that is, `fetchToDecodeDelay + decodeToFetchDelay` cycles of sending from a full fetch queue.  The
bound `skidBufferMax` of the constructor counts `fetchToDecodeDelay + 1` cycles of the fetch width
instead.
-/
import Gem5.FetchDelivery
import Gem5.DecodeOrder
import Gem5.Burst

open Runs

namespace Gem5.Pipeline

variable {n : ℕ}

namespace DecodeLane

/-! ## What a cycle of decode holds -/

/-- The number of instructions that decode holds of a thread. -/
def held (th : DecodeLane n) : ℕ := th.skidBuffer.length + th.insts.length

/-- The assertion of `skidInsert` did not fail. -/
def NoOverflow (e : DecodeFail) : Prop := e ≠ .skidBufferMax

instance : DecidablePred (NoOverflow) := fun _ => inferInstanceAs (Decidable (_ ≠ _))

variable {p : DecodeParams n} {th : DecodeLane n} {m : ℕ} {c : DecodeCycle n}

theorem skidInsert_fits (h : th.held ≤ p.skidBufferMax) :
    Ends (· = th.skidded) NoOverflow (th.skidInsert p) := by
  have hlen : (th.skidBuffer ++ th.insts).length ≤ p.skidBufferMax := by
    rw [List.length_append]
    exact h
  unfold skidInsert
  dsimp only
  rw [require_ok (decide_eq_true hlen)]
  rfl

theorem held_skidded (th : DecodeLane n) : th.skidded.skidBuffer.length = th.held :=
  List.length_append

theorem setBlocked_same (th : DecodeLane n) :
    th.setBlocked.insts = th.insts ∧ th.setBlocked.skidBuffer = th.skidBuffer := by
  unfold setBlocked
  split_ifs <;> exact ⟨rfl, rfl⟩

theorem unblock_same (th : DecodeLane n) :
    th.unblock.insts = th.insts ∧ th.unblock.skidBuffer = th.skidBuffer ∧
      (th.unblock.decodeStatus = .Running ∨ th.unblock.decodeStatus = th.decodeStatus) := by
  unfold unblock
  split_ifs
  · exact ⟨rfl, rfl, .inl rfl⟩
  · exact ⟨rfl, rfl, .inr rfl⟩

/-- A blocked thread holds everything in its skid buffer. -/
theorem block_fits (h : th.held ≤ p.skidBufferMax) :
    Ends (fun th' => th'.insts = [] ∧ th'.skidBuffer.length = th.held ∧
      th'.decodeStatus = .Blocked) NoOverflow (th.block p) := by
  refine (skidInsert_fits h).bind fun th' hth' => ?_
  rw [hth']
  obtain ⟨hinsts, hskid⟩ := setBlocked_same th.skidded
  refine ⟨hinsts, ?_, decodeStatus_setBlocked _⟩
  show th.skidded.setBlocked.skidBuffer.length = th.held
  rw [hskid, held_skidded]

/-- A thread whose signals have been checked: it holds at most `m` instructions, and those that
fetch has delivered are still to be decoded only if decode is going to look at them. -/
structure Ready (fromFetch : List (FetchedInst n)) (m : ℕ) (th : DecodeLane n) : Prop where
  held : th.held ≤ m
  status : th.decodeStatus ≠ .StartSquash
  delivered : fromFetch = [] → th.insts = []
  idle : th.decodeStatus = .Blocked ∨ th.decodeStatus = .Squashing → th.insts = []

theorem ready_clear (fromFetch : List (FetchedInst n)) (m : ℕ) (th : DecodeLane n) :
    Ready fromFetch m th.clear :=
  ⟨Nat.zero_le m, nofun, fun _ => rfl, fun _ => rfl⟩

theorem updateStatus_fits {tid : Fin n} (th : DecodeLane n) (hm : m ≤ p.skidBufferMax)
    (hheld : th.held ≤ m) (hst : th.decodeStatus ≠ .StartSquash)
    (hdelivered : c.fromFetch = [] → th.insts = []) :
    Ends (Ready c.fromFetch m) NoOverflow (th.updateStatus p c tid) := by
  unfold updateStatus
  split_ifs with hsq hstall hblocked hsquash
  · show Ready c.fromFetch m (th.squash p)
    unfold squash
    split_ifs <;> exact ready_clear _ _ _
  · refine (block_fits (hheld.trans hm)).mono fun th' ⟨hinsts, hskid, hst'⟩ => ?_
    refine ⟨?_, by rw [hst']; nofun, fun _ => hinsts, fun _ => hinsts⟩
    rw [held, hskid, hinsts]
    exact hheld
  · obtain ⟨hinsts, hskid, hst'⟩ := unblock_same { th with decodeStatus := .Unblocking }
    refine ⟨?_, ?_, fun hf => hinsts.trans (hdelivered hf), fun h => ?_⟩
    · rw [held, hinsts, hskid]
      exact hheld
    · rcases hst' with hst' | hst' <;> rw [hst'] <;> nofun
    · rcases hst' with hst' | hst' <;> rw [hst'] at h <;> rcases h with h | h <;> cases h
  · exact ⟨hheld, nofun, hdelivered, fun h => by rcases h with h | h <;> cases h⟩
  · exact ⟨hheld, hst, hdelivered, fun h => h.elim (absurd · hblocked) (absurd · hsquash)⟩

theorem checkSignalsAndUpdate_fits {tid : Fin n} (hm : m ≤ p.skidBufferMax) (hheld : th.held ≤ m)
    (hst : th.decodeStatus ≠ .StartSquash) (hdelivered : c.fromFetch = [] → th.insts = []) :
    Ends (Ready c.fromFetch m) NoOverflow (th.checkSignalsAndUpdate p c tid) := by
  have hread : Ends (fun th' => ∃ b, th' = { th with stallsRename := b }) NoOverflow
      (th.readStallSignals c tid) := by
    unfold readStallSignals
    dsimp only
    split_ifs
    · exact (ends_require (by decide)).bind fun _ _ => ⟨_, rfl⟩
    · exact ⟨_, rfl⟩
  refine hread.bind fun th' hth' => ?_
  obtain ⟨b, rfl⟩ := hth'
  exact updateStatus_fits { th with stallsRename := b } hm hheld hst hdelivered

/-- The loop leaves no more than it was given. -/
theorem decodeLoop_fits (c : DecodeCycle n) (w : ℕ) (l : List (FetchedInst n)) :
    Ends (fun out => out.rest.length ≤ l.length) NoOverflow (decodeLoop c w l) := by
  induction l generalizing w with
  | nil =>
    unfold decodeLoop
    exact Nat.le_refl 0
  | cons inst l ih =>
    cases w with
    | zero => exact Nat.le_refl _
    | succ w =>
      unfold decodeLoop
      split_ifs
      · exact (ih (w + 1)).bind fun out hout => Nat.le_succ_of_le hout
      · show NoOverflow .predictedAsBranch
        decide
      · exact Nat.le_succ _
      · exact (ih w).bind fun out hout => Nat.le_succ_of_le hout

/-- What decoding leaves of a thread that holds at most `m` instructions. -/
structure Leaves (m : ℕ) (th th' : DecodeLane n) : Prop where
  held : th'.held ≤ m
  status : th'.decodeStatus ≠ .StartSquash
  running : th.decodeStatus ≠ .Unblocking → th'.insts = []
  delivered : th.insts = [] → th'.insts = []

theorem held_setToDecode {unblocking : Bool} {out : LoopEnd n}
    (h : out.rest.length ≤ (th.toDecode unblocking).length) :
    (th.setToDecode unblocking out).held ≤ th.held := by
  cases unblocking with
  | true => exact Nat.add_le_add_right h _
  | false => exact Nat.add_le_add_left h _

theorem blockRest_fits {th₁ : DecodeLane n} (hm : m ≤ p.skidBufferMax) (hheld : th₁.held ≤ m)
    (hst : th₁.decodeStatus ≠ .StartSquash) (hdelivered : th.insts = [] → th₁.insts = []) :
    Ends (Leaves m th) NoOverflow
      (th₁.blockRest p (decide (th.decodeStatus = .Unblocking))) := by
  unfold blockRest
  split_ifs with hempty
  · refine ⟨hheld, hst, fun hne => ?_, hdelivered⟩
    rw [decide_eq_false hne] at hempty
    exact List.isEmpty_iff.mp hempty
  · refine (block_fits (hheld.trans hm)).mono fun th' ⟨hinsts, hskid, hst'⟩ => ?_
    refine ⟨?_, by rw [hst']; nofun, fun _ => hinsts, fun _ => hinsts⟩
    rw [held, hskid, hinsts]
    exact hheld

theorem decodeInsts_fits (k : ℕ) (hm : m ≤ p.skidBufferMax) (hheld : th.held ≤ m)
    (hst : th.decodeStatus ≠ .StartSquash) :
    Ends (fun r => Leaves m th r.1) NoOverflow (th.decodeInsts p c k) := by
  unfold decodeInsts
  dsimp only
  split_ifs with hempty
  · refine ⟨hheld, hst, fun hne => ?_, fun h => h⟩
    rw [decide_eq_false hne] at hempty
    exact List.isEmpty_iff.mp hempty
  · refine (decodeLoop_fits c _ _).bind fun out hout => ?_
    have hset := (held_setToDecode hout).trans hheld
    obtain ⟨hstatus, _⟩ :=
      decodeStatus_setToDecode (decide (th.decodeStatus = .Unblocking)) out th
    have hinsts : th.insts = [] →
        (th.setToDecode (decide (th.decodeStatus = .Unblocking)) out).insts = [] := by
      intro hnil
      by_cases hun : th.decodeStatus = .Unblocking
      · rw [decide_eq_true hun]
        exact hnil
      · rw [decide_eq_false hun] at hempty
        exact absurd (List.isEmpty_iff.mpr hnil) hempty
    cases out.mispredict with
    | true =>
      rw [if_pos rfl]
      refine (blockRest_fits hm ?_ ?_ fun _ => rfl).bind fun th' h => h
      · exact Nat.zero_le m
      · exact nofun
    | false =>
      rw [if_neg Bool.false_ne_true]
      exact (blockRest_fits hm hset (by rwa [hstatus]) hinsts).bind fun th' h => h

/-- What a cycle leaves of a thread: everything is in the skid buffer. -/
structure Settles (m : ℕ) (th : DecodeLane n) : Prop where
  insts : th.insts = []
  skid : th.skidBuffer.length ≤ m
  status : th.decodeStatus ≠ .StartSquash

theorem Settles.of_held (hinsts : th.insts = []) (hheld : th.held ≤ m)
    (hst : th.decodeStatus ≠ .StartSquash) : Settles m th :=
  ⟨hinsts, le_of_add_le_left hheld, hst⟩

theorem finishUnblocking_fits {valid : Bool} (hm : m ≤ p.skidBufferMax) (hheld : th.held ≤ m)
    (hst : th.decodeStatus ≠ .StartSquash) (hinsts : valid = false → th.insts = []) :
    Ends (Settles m) NoOverflow (th.finishUnblocking p valid) := by
  have hunblock : ∀ {th' : DecodeLane n}, th'.insts = [] → th'.skidBuffer.length ≤ m →
      th'.decodeStatus ≠ .StartSquash → Settles m th'.unblock := by
    intro th' hinsts' hskid' hst'
    obtain ⟨hi, hs, hstatus⟩ := unblock_same th'
    refine ⟨hi.trans hinsts', hs ▸ hskid', ?_⟩
    rcases hstatus with hstatus | hstatus <;> rw [hstatus]
    · nofun
    · exact hst'
  unfold finishUnblocking
  cases valid with
  | true =>
    rw [if_pos rfl]
    refine (skidInsert_fits (hheld.trans hm)).bind fun th' hth' => ?_
    rw [hth']
    exact hunblock rfl (by rw [held_skidded]; exact hheld) hst
  | false => exact hunblock (hinsts rfl) (le_of_add_le_left hheld) hst

theorem decode_fits (k : ℕ) (skidsEmpty : Bool) (hm : m ≤ p.skidBufferMax)
    (h : Ready c.fromFetch m th) :
    Ends (fun r => Settles m r.1) NoOverflow (th.decode p c k skidsEmpty) := by
  have hinsts := decodeInsts_fits (c := c) k hm h.held h.status
  have hrun (hne : th.decodeStatus ≠ .Unblocking) :
      Ends (fun r => Settles m r.1) NoOverflow (th.decodeInsts p c k) :=
    hinsts.mono fun r hr => .of_held (hr.running hne) hr.held hr.status
  unfold decode
  cases hst : th.decodeStatus with
  | Running => exact hrun (by rw [hst]; nofun)
  | Idle => exact hrun (by rw [hst]; nofun)
  | Unblocking =>
    refine (ends_require (by decide)).bind fun _ _ => hinsts.bind fun ⟨th', sent⟩ hr => ?_
    refine (finishUnblocking_fits hm hr.held hr.status fun hvalid => ?_).bind fun th'' h'' => h''
    have hnil : c.fromFetch = [] := by simpa using hvalid
    exact hr.delivered (h.delivered hnil)
  | Blocked => exact .of_held (h.idle (.inl hst)) h.held h.status
  | Squashing => exact .of_held (h.idle (.inr hst)) h.held h.status
  | StartSquash => exact absurd hst h.status

end DecodeLane

namespace FetchDecode

open DecodeLane

/-- What decode does for one active thread. -/
theorem decodeThread_fits {p : DecodeParams n} {c : DecodeCycle n} {t : Tick n} {tid : Fin n}
    {m : ℕ} (hm : m ≤ p.skidBufferMax) (hheld : (t.lane tid).held ≤ m)
    (hst : (t.lane tid).decodeStatus ≠ .StartSquash)
    (hdelivered : c.fromFetch = [] → (t.lane tid).insts = []) :
    Ends (fun t' => Settles m (t'.lane tid) ∧ ∀ j, j ≠ tid → t'.lane j = t.lane j) NoOverflow
      (decodeThread p c t tid) := by
  unfold decodeThread
  refine (checkSignalsAndUpdate_fits hm hheld hst hdelivered).bind fun th hth => ?_
  refine (decode_fits _ _ hm hth).bind fun ⟨th', sent⟩ hth' => ?_
  refine ⟨?_, fun j hj => Function.update_of_ne hj _ _⟩
  show Settles m (Function.update t.lane tid th' tid)
  rw [Function.update_self]
  exact hth'

/-- A cycle of decode holds no more of a thread than its skid buffer and what fetch delivers. -/
theorem decodeTick_fits {p : DecodeParams n} {s : FetchDecode n} {c : DecodeCycle n}
    (hinsts : ∀ tid, (s.lane tid).insts = [])
    (hst : ∀ tid, (s.lane tid).decodeStatus ≠ .StartSquash)
    (hactive : ∀ inst ∈ c.fromFetch, inst.tid ∈ p.activeThreads)
    (hm : ∀ tid, (s.lane tid).skidBuffer.length + (c.fromFetch.filter (·.tid = tid)).length ≤
      p.skidBufferMax) :
    Ends (fun s' => ∀ tid, Settles ((s.lane tid).skidBuffer.length +
      (c.fromFetch.filter (·.tid = tid)).length) (s'.lane tid)) NoOverflow (s.decodeTick p c) := by
  have hnew (tid : Fin n) : (sortInsts s.lane c.fromFetch tid).insts =
      c.fromFetch.filter (·.tid = tid) := by
    show (s.lane tid).insts ++ _ = _
    rw [hinsts, List.nil_append]
  have hheld (tid : Fin n) : (sortInsts s.lane c.fromFetch tid).held =
      (s.lane tid).skidBuffer.length + (c.fromFetch.filter (·.tid = tid)).length := by
    rw [held, hnew]
    rfl
  unfold decodeTick
  refine (Ends.foldlM_each (fun (t : Tick n) tid => t.lane tid)
    (fun tid th => Settles ((s.lane tid).skidBuffer.length +
      (c.fromFetch.filter (·.tid = tid)).length) th)
    p.activeThreads_nodup fun t tid _ ht => ?_).bind fun t ht tid => ?_
  · change t.lane tid = sortInsts s.lane c.fromFetch tid at ht
    refine decodeThread_fits (hm tid) ?_ ?_ fun hnil => ?_
    · rw [ht, hheld]
    · rw [ht]
      exact hst tid
    · rw [ht, hnew, hnil]
      rfl
  · by_cases htid : tid ∈ p.activeThreads
    · exact ht.1 tid htid
    · have hnone : c.fromFetch.filter (·.tid = tid) = [] := by
        rw [List.filter_eq_nil_iff]
        intro inst hi hinst
        exact htid (of_decide_eq_true hinst ▸ hactive inst hi)
      show Settles _ (t.lane tid)
      rw [show t.lane tid = _ from ht.2 tid htid]
      refine ⟨(hnew tid).trans hnone, ?_, hst tid⟩
      exact Nat.le_add_right _ _

end FetchDecode

namespace FrontEnd

open DecodeLane FetchDecode Burst

/-! ## What is on the way -/

/-- The numbers of instructions of a thread in some slots. -/
def counts (slots : List (List (FetchedInst n))) (tid : Fin n) : List ℕ :=
  slots.map fun slot => (slot.filter (·.tid = tid)).length

/-- The longest that the queue of a thread can be when fetch sends next. -/
def longest (p : FrontParams n) (s : FrontEnd n) (tid : Fin n) : ℕ :=
  min p.fetchQueueSize ((s.fetchQueue tid).length + p.fetchWidth)

/-- The most that fetch sends in `k` cycles from a queue of `q` instructions. -/
def mostSent (p : FrontParams n) (k q : ℕ) : ℕ :=
  burst p.decodeWidth p.fetchWidth p.fetchQueueSize k q

/-- What decode can get of a blocked thread before fetch knows. -/
def skidMost (p : FrontParams n) : ℕ :=
  mostSent p (p.fetchToDecodeDelay + p.decodeToFetchDelay) p.fetchQueueSize

/-- Decode holds nothing of the thread but its skid buffer; if the thread is blocked then fetch can
send only in the next `r` cycles, and there is room for that and for what is on the way. -/
structure Covered (p : FrontParams n) (s : FrontEnd n) (tid : Fin n) : Prop where
  insts : (s.stages.lane tid).insts = []
  status : (s.stages.lane tid).decodeStatus ≠ .StartSquash
  window : Window p.decodeWidth p.fetchWidth p.fetchQueueSize (counts s.toDecode tid)
    (longest p s tid)
  blocked : (s.stages.lane tid).isBlocked = true → ∃ r,
    (s.stages.lane tid).skidBuffer.length + (counts s.toDecode tid).sum +
        mostSent p r (longest p s tid) ≤ skidMost p ∧
      ∀ j, r < j → j ≤ p.decodeToFetchDelay →
        reads (s.stages.stallsDecode tid) (s.stages.signals.take j) tid = .ok true

/-- The invariant of the two stages and the queues. -/
structure Inv (p : FrontParams n) (s : FrontEnd n) : Prop where
  inStep : InStep p.toDecodeParams s.stages
  signals : s.stages.signals.length = p.decodeToFetchDelay
  slots : s.toDecode.length = p.fetchToDecodeDelay
  size : ∀ tid, (s.fetchQueue tid).length ≤ p.fetchQueueSize
  own : OwnInsts s.fetchQueue
  active : ∀ slot ∈ s.toDecode, ∀ inst ∈ slot, inst.tid ∈ p.activeThreads
  covered : ∀ tid, Covered p s tid

theorem inv_initial (p : FrontParams n) : Inv p (initial p) := by
  refine ⟨inStep_initial _, List.length_replicate, List.length_replicate, fun _ => Nat.zero_le _,
    fun _ _ h => absurd h List.not_mem_nil, fun slot hslot inst hi => ?_,
    fun tid => ⟨rfl, nofun, ?_, nofun⟩⟩
  · rw [List.eq_of_mem_replicate hslot] at hi
    exact absurd hi List.not_mem_nil
  · have hzero : counts (initial p).toDecode tid = List.replicate p.fetchToDecodeDelay 0 := by
      show (List.replicate _ _).map _ = _
      rw [List.map_replicate]
      rfl
    rw [hzero]
    exact window_replicate _ (min_le_left _ _)

/-! ## One cycle -/

/-- What fetch has sent of a thread in a cycle. -/
structure Sent (p : FrontParams n) (s : FrontEnd n) (stalled : Bool) (sending : Sending n)
    (tid : Fin n) : Prop where
  width : (sending.toDecode.filter (·.tid = tid)).length ≤ p.decodeWidth
  count : (sending.toDecode.filter (·.tid = tid)).length ≤ longest p s tid
  rest : (sending.fetchQueue tid).length + (sending.toDecode.filter (·.tid = tid)).length ≤
    longest p s tid
  stalled : stalled = true → sending.toDecode.filter (·.tid = tid) = []

variable {p : FrontParams n} {sending : Sending n} {s : FrontEnd n} {stalled : Bool} {tid : Fin n}
  {sig : Fin n → BlockSignals} {sigs : List (Fin n → BlockSignals)}

theorem sent_of_sends {stallsDecode : Fin n → Bool} {before : Fin n → List (FetchedInst n)}
    (h : Sends p stallsDecode before sending)
    (hbefore : ∀ tid, (before tid).length ≤ longest p s tid) (tid : Fin n) :
    Sent p s (stallsDecode tid) sending tid := by
  have hfront := congrArg List.length (h.front tid)
  rw [List.length_append] at hfront
  have hlen := hbefore tid
  refine ⟨(List.length_filter_le _ _).trans h.width, by omega, by omega, fun hst => ?_⟩
  rw [List.filter_eq_nil_iff]
  intro inst hi hinst
  have hfree := (h.free inst hi).2
  rw [of_decide_eq_true hinst, hst] at hfree
  cases hfree

/-- A cycle of fetch, seen from one thread: the slots with the new one make a window, and a blocked
thread has room for the oldest of them, for the others, and for what fetch can send later. -/
theorem Sent.window {q' : ℕ} (h : Sent p s stalled sending tid)
    (hw : Window p.decodeWidth p.fetchWidth p.fetchQueueSize (counts s.toDecode tid)
      (longest p s tid))
    (hq' : q' = min p.fetchQueueSize ((sending.fetchQueue tid).length + p.fetchWidth)) :
    Window p.decodeWidth p.fetchWidth p.fetchQueueSize
      (counts (s.toDecode ++ [sending.toDecode]) tid) q' := by
  have hrest := h.rest
  rw [counts, List.map_append]
  refine hw.snoc h.width h.count ?_
  dsimp only
  rw [hq']
  omega

/-- The reading of the signals that are still on the way. -/
theorem reads_take {stalled' : Bool} {j : ℕ}
    (hread : readBlockSignals stalled (sig tid) = .ok stalled') :
    reads stalled ((sig :: sigs).take (j + 1)) tid = reads stalled' (sigs.take j) tid := by
  rw [List.take_succ_cons]
  show readBlockSignals stalled (sig tid) >>= _ = _
  rw [hread]
  rfl

/-- **Room for what is on the way.**  When fetch has sent there is room for all slots and for what
it can send in the next `r` cycles, whether the thread is blocked already or will be in this cycle.
-/
theorem Covered.room {q' : ℕ} (h : Covered p s tid) (hs : Inv p s)
    (hsigs : s.stages.signals = sig :: sigs)
    (hread : readBlockSignals (s.stages.stallsDecode tid) (sig tid) = .ok stalled)
    (hsent : Sent p s stalled sending tid)
    (hq' : q' = min p.fetchQueueSize ((sending.fetchQueue tid).length + p.fetchWidth)) :
    ∃ r, (s.stages.lane tid).skidBuffer.length +
        (counts (s.toDecode ++ [sending.toDecode]) tid).sum + mostSent p r q' ≤ skidMost p ∧
      ∀ j, r < j → j < p.decodeToFetchDelay → reads stalled (sigs.take j) tid = .ok true := by
  have hwindow := hsent.window h.window hq'
  have hpos := p.decodeToFetchDelay_pos
  cases hb : (s.stages.lane tid).isBlocked with
  | false =>
    -- The thread blocks at the earliest now: its signal arrives in `decodeToFetchDelay` cycles.
    refine ⟨p.decodeToFetchDelay - 1, ?_, fun j hj hlt => by omega⟩
    have hskid : (s.stages.lane tid).skidBuffer = [] := hs.inStep.skids tid hb
    have hlen : (counts (s.toDecode ++ [sending.toDecode]) tid).length +
        (p.decodeToFetchDelay - 1) = p.fetchToDecodeDelay + p.decodeToFetchDelay := by
      rw [counts, List.length_map, List.length_append, hs.slots, List.length_singleton]
      omega
    have hsum := hwindow.sum_le (p.decodeToFetchDelay - 1)
    rw [hlen] at hsum
    rw [hskid, List.length_nil, Nat.zero_add]
    exact hsum
  | true =>
    obtain ⟨r, hroom, hreads⟩ := h.blocked hb
    have hcounts : (counts (s.toDecode ++ [sending.toDecode]) tid).sum =
        (counts s.toDecode tid).sum + (sending.toDecode.filter (·.tid = tid)).length := by
      rw [counts, List.map_append, List.sum_append]
      rfl
    have hlater (j : ℕ) (hj : r < j + 1) (hlt : j < p.decodeToFetchDelay) :
        reads stalled (sigs.take j) tid = .ok true := by
      have hall := hreads (j + 1) hj hlt
      rwa [hsigs, reads_take hread] at hall
    have hrest := hsent.rest
    cases r with
    | zero =>
      have hstalled : stalled = true := by
        have hfirst := hlater 0 Nat.one_pos hpos
        exact Except.ok.inj hfirst
      refine ⟨0, ?_, fun j _ hlt => hlater j (Nat.succ_pos j) hlt⟩
      rw [hcounts, hsent.stalled hstalled]
      exact hroom
    | succ r =>
      refine ⟨r, ?_, fun j hj hlt => hlater j (Nat.succ_lt_succ hj) hlt⟩
      have hstep : (sending.toDecode.filter (·.tid = tid)).length + mostSent p r q' ≤
          mostSent p (r + 1) (longest p s tid) :=
        add_burst_le r hsent.width hsent.count (by omega)
      omega

/-- What a cycle leaves of a thread. -/
theorem Covered.cycle {new : Fin n → BlockSignals} {slot : List (FetchedInst n)}
    {slots : List (List (FetchedInst n))} {stages : FetchDecode n} (h : Covered p s tid)
    (hs : Inv p s) (hsigs : s.stages.signals = sig :: sigs)
    (hread : readBlockSignals (s.stages.stallsDecode tid) (sig tid) = .ok stalled)
    (hsent : Sent p s stalled sending tid)
    (hslots : s.toDecode ++ [sending.toDecode] = slot :: slots)
    (hsettles : Settles ((s.stages.lane tid).skidBuffer.length +
      (slot.filter (·.tid = tid)).length) (stages.lane tid))
    (hstep : InStep p.toDecodeParams stages) (hstalls : stages.stallsDecode tid = stalled)
    (hsignals : stages.signals = sigs ++ [new]) :
    Covered p ⟨stages, sending.fetchQueue, slots⟩ tid := by
  have hlen : sigs.length + 1 = p.decodeToFetchDelay := by
    rw [← hs.signals, hsigs, List.length_cons]
  have hcounts : counts (s.toDecode ++ [sending.toDecode]) tid =
      (slot.filter (·.tid = tid)).length :: counts slots tid := by
    rw [hslots]
    rfl
  refine ⟨hsettles.insts, hsettles.status, ?_, fun hb => ?_⟩
  · refine (hsent.window h.window rfl).suffix ?_
    rw [hcounts]
    exact List.suffix_cons _ _
  · obtain ⟨r, hroom, hreads⟩ := h.room hs hsigs hread hsent rfl
    refine ⟨r, ?_, fun j hj hle => ?_⟩
    · rw [hcounts, List.sum_cons] at hroom
      have hskid := hsettles.skid
      show (stages.lane tid).skidBuffer.length + (counts slots tid).sum + mostSent p r _ ≤ _
      exact le_trans (by unfold longest; dsimp only; omega) hroom
    · show reads (stages.stallsDecode tid) (stages.signals.take j) tid = .ok true
      rcases Nat.lt_or_eq_of_le hle with hlt | rfl
      · rw [hstalls, hsignals, List.take_append_of_le_length (by omega)]
        exact hreads j hj hlt
      · have hfull : stages.signals.take p.decodeToFetchDelay = stages.signals := by
          refine List.take_of_length_le ?_
          rw [hsignals, List.length_append, List.length_singleton, hlen]
        rw [hfull, hstep.tells tid]
        exact congrArg Except.ok hb

theorem decodeTick_signals (p : DecodeParams n) (s : FetchDecode n) (c : DecodeCycle n) :
    Ends (fun s' => s'.stallsDecode = s.stallsDecode ∧
      ∃ new, s'.signals = (s.signals ++ [new]).tail) (fun _ => True) (s.decodeTick p c) := by
  unfold decodeTick
  cases p.activeThreads.foldlM (decodeThread p c) ⟨sortInsts s.lane c.fromFetch, []⟩ with
  | ok t => exact ⟨rfl, _, rfl⟩
  | error e => trivial

/-- **One cycle keeps every thread covered**, and the assertion of `skidInsert` holds in it if the
skid buffers have room for what can arrive. -/
theorem Inv.cycle {p : FrontParams n} {s : FrontEnd n} (h : Inv p s)
    (hmost : skidMost p ≤ p.skidBufferMax) (c : FrontCycle n) :
    Ends (fun s' => Inv p s' ∧ ∀ tid, (s'.stages.lane tid).skidBuffer.length ≤ p.skidBufferMax)
      NoOverflow (cycle p s c) := by
  obtain ⟨sig, sigs, hsigs⟩ := List.exists_cons_of_ne_nil h.inStep.delayed
  unfold FrontEnd.cycle
  refine ((fetchTick_reads h.inStep hsigs).mono_error nofun).bind fun stages hstages => ?_
  obtain ⟨stalls, rfl, hread⟩ := hstages
  dsimp only
  obtain ⟨hown, hlongest⟩ := fetched_spec p c h.size h.own
  have hsends : Sends p stalls (fetched p s c) (send p stalls c.start (fetched p s c)) :=
    send_sends p stalls c.start hown
  generalize send p stalls c.start (fetched p s c) = sending at hsends
  have hsent := sent_of_sends hsends hlongest
  obtain ⟨slot, slots, hslots⟩ :
      ∃ slot slots, s.toDecode ++ [sending.toDecode] = slot :: slots :=
    List.exists_cons_of_ne_nil (List.append_ne_nil_of_right_ne_nil _ nofun)
  have hactive : ∀ slot' ∈ slot :: slots, ∀ inst ∈ slot', inst.tid ∈ p.activeThreads := by
    intro slot' hslot' inst hi
    rw [← hslots, List.mem_append, List.mem_singleton] at hslot'
    rcases hslot' with hslot' | rfl
    · exact h.active slot' hslot' inst hi
    · exact (hsends.free inst hi).1
  have hfits (tid : Fin n) : (s.stages.lane tid).skidBuffer.length +
      (slot.filter (·.tid = tid)).length ≤ p.skidBufferMax := by
    obtain ⟨r, hroom, _⟩ := (h.covered tid).room h hsigs (hread tid) (hsent tid) rfl
    rw [hslots] at hroom
    change _ + ((slot.filter (·.tid = tid)).length + (counts slots tid).sum) + _ ≤ _ at hroom
    omega
  rw [hslots, List.headD_cons, List.tail_cons]
  have hticked := ((decodeTick_fits (s := { s.stages with stallsDecode := stalls })
    (c := c.toDecodeCycle slot) (fun tid => (h.covered tid).insts)
    (fun tid => (h.covered tid).status) (hactive slot List.mem_cons_self) hfits).and
    (decodeTick_ends h.inStep hsigs ⟨stalls, rfl⟩ (fun tid => ?_) (c.toDecodeCycle slot))).and
    (decodeTick_signals p.toDecodeParams _ _)
  · refine (hticked.mono_error fun e he => he.1.1).bind fun stages' hstages' => ?_
    obtain ⟨⟨hsettles, hstep, -⟩, hstalls, new, hsignals⟩ := hstages'
    dsimp only at hstalls hsignals
    rw [hsigs, List.cons_append, List.tail_cons] at hsignals
    have hlen : slots.length = p.fetchToDecodeDelay := by
      have hall := congrArg List.length hslots
      rw [List.length_append, h.slots, List.length_singleton, List.length_cons] at hall
      omega
    refine ⟨⟨hstep, ?_, hlen, fun tid => ?_, fun tid inst hi => ?_, fun slot' hslot' =>
      hactive slot' (List.mem_cons_of_mem _ hslot'), fun tid => ?_⟩, fun tid => ?_⟩
    · show stages'.signals.length = _
      rw [hsignals, List.length_append, ← h.signals, hsigs]
      rfl
    · have hrest := (hsent tid).rest
      exact (le_of_add_le_left hrest).trans (min_le_left _ _)
    · refine hown tid inst ?_
      rw [← hsends.front tid]
      exact List.mem_append_right _ hi
    · exact (h.covered tid).cycle h hsigs (hread tid) (hsent tid) hslots (hsettles tid) hstep
        (congrFun hstalls tid) hsignals
    · exact (hsettles tid).skid.trans (hfits tid)
  · obtain ⟨b, hb, hrest⟩ := reads_cons (hsigs ▸ h.inStep.tells tid)
    rw [hread tid, Except.ok.injEq] at hb
    show reads (stalls tid) sigs tid = _
    rwa [hb]

/-! ## Runs -/

/-- **Skid buffers that are large enough.**  If `skidBufferMax` covers what a full fetch queue sends
in `fetchToDecodeDelay + decodeToFetchDelay` cycles, then in every run, whatever rename and commit
do, no skid buffer holds more and the assertion of `skidInsert` does not fail. -/
theorem skidBuffers_fit (p : FrontParams n) (hmost : skidMost p ≤ p.skidBufferMax)
    (cs : List (FrontCycle n)) :
    Ends (fun s => ∀ tid, (s.stages.lane tid).skidBuffer.length ≤ p.skidBufferMax) NoOverflow
      (run (cycle p) (initial p) cs) := by
  have hall : Admitted (fun _ _ => True) (cycle p) (initial p) cs :=
    admitted_of_forall fun _ _ _ => trivial
  have hends := run_ends (P := fun s => Inv p s ∧
      ∀ tid, (s.stages.lane tid).skidBuffer.length ≤ p.skidBufferMax)
    (fun s c hs _ => hs.1.cycle hmost c) ⟨inv_initial p, fun _ => Nat.zero_le _⟩ hall
  exact hends.mono fun s hs => hs.2

/-- One thread, widths and delays of 1 but for the way back. -/
def slowSignals : FrontParams 1 where
  decodeWidth := 1
  fetchWidth := 1
  fetchToDecodeDelay := 1
  decodeToFetchDelay := 2
  fetchQueueSize := 4
  fullSystem := false
  activeThreads := .finRange 1
  decodeToFetchDelay_pos := Nat.two_pos
  activeThreads_nodup := by decide

/-- The same with a way back of one cycle. -/
def quickSignals : FrontParams 1 := { slowSignals with
  decodeToFetchDelay := 1
  decodeToFetchDelay_pos := Nat.one_pos }

/-- A cycle in which fetch can build an instruction; rename may block. -/
def steady (renameBlock : Bool) : FrontCycle 1 where
  fetchSquash := fun _ => false
  supply := [(.last 0, [{ tid := .last 0, seqNum := 1 }])]
  start := 0
  isSquashed := fun _ => false
  renameBlock := fun _ => renameBlock
  renameUnblock := fun _ => false
  commitSquash := fun _ => false

/-- With a way back of one cycle the bound is met. -/
theorem skidBuffers_fit_quick :
    Ends (fun s => ∀ tid, (s.stages.lane tid).skidBuffer.length ≤ quickSignals.skidBufferMax)
      NoOverflow (run (cycle quickSignals) (initial quickSignals)
        [steady false, steady true, steady false, steady false]) :=
  skidBuffers_fit quickSignals (by decide) _

/-- With a way back of two cycles the skid buffer overflows when rename blocks in the cycle in which
the first instruction arrives. -/
theorem skidBuffer_overflows :
    ¬ Ends (fun s => ∀ tid, (s.stages.lane tid).skidBuffer.length ≤ slowSignals.skidBufferMax)
      NoOverflow (run (cycle slowSignals) (initial slowSignals)
        [steady false, steady true, steady false, steady false]) := by
  have hrun : run (cycle slowSignals) (initial slowSignals)
      [steady false, steady true, steady false, steady false] = .error .skidBufferMax := rfl
  rw [hrun]
  exact fun h => h rfl

end FrontEnd

end Gem5.Pipeline
