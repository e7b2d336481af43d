/-
# Sharing the instruction cache port

What the threads share is consistent (`Shared`) as long as no translation ends in a state where
it finds the shared variables taken: a translation that succeeds while the cache is blocked
sends its packet all the same, and a fault that has to be deferred needs the one event.
`fetch_shares_port` is the theorem about runs, `second_thread_conflicts` are the two runs that
show what happens otherwise.
-/
import Gem5.FetchPort

open Runs

namespace Gem5.Frontend

variable {n : ℕ} {p : Params}

/-! ## The invariant -/

/-- **The invariant.**  The cache is blocked as long as it owes a retry, the packet that waits for
it belongs to the one thread in `IcacheWaitRetry`, and no packet was sent in such a time. -/
structure Shared (s : Fetch n) : Prop where
  blocked : s.cacheBlocked = s.portBlocked
  packet : s.retryPkt.map Request.tid = s.retryTid
  waits : ∀ tid, s.retryTid = some tid → s.cacheBlocked = true
  owner : ∀ tid, (s.thread tid).fetchStatus = .IcacheWaitRetry ↔ s.retryTid = some tid
  sends : ∀ x ∈ s.sends, x.whileBlocked = false

/-- A failure that has nothing to do with what the threads share. -/
def Private (e : FetchFail) : Prop := e.ofSharing = false

theorem shared_init (n : ℕ) : Shared (Fetch.init n) where
  blocked := rfl
  packet := rfl
  waits _ h := nomatch h
  owner _ := ⟨nofun, nofun⟩
  sends _ h := absurd h List.not_mem_nil

variable {s : Fetch n} {t : FetchThread n} {req : Request n}

/-- The invariant looks at no other variables. -/
theorem Shared.of_eq {s' : Fetch n} (hs : Shared s) (hthread : s'.thread = s.thread)
    (hblocked : s'.cacheBlocked = s.cacheBlocked) (hpkt : s'.retryPkt = s.retryPkt)
    (htid : s'.retryTid = s.retryTid) (hport : s'.portBlocked = s.portBlocked)
    (hsends : s'.sends = s.sends) : Shared s' := by
  refine ⟨?_, ?_, ?_, ?_, ?_⟩
  · rw [hblocked, hport]
    exact hs.blocked
  · rw [hpkt, htid]
    exact hs.packet
  · rw [htid, hblocked]
    exact hs.waits
  · rw [hthread, htid]
    exact hs.owner
  · rw [hsends]
    exact hs.sends

/-- A change of one thread that does not enter or leave `IcacheWaitRetry`. -/
theorem Shared.setThread (hs : Shared s) {tid : Fin n}
    (h : t.fetchStatus = .IcacheWaitRetry ↔ (s.thread tid).fetchStatus = .IcacheWaitRetry) :
    Shared (s.setThread tid t) := by
  refine ⟨hs.blocked, hs.packet, hs.waits, fun tid' => ?_, hs.sends⟩
  show (Function.update s.thread tid t tid').fetchStatus = _ ↔ _
  by_cases htid : tid' = tid
  · subst htid
    rw [Function.update_self, h]
    exact hs.owner tid'
  · rw [Function.update_of_ne htid]
    exact hs.owner tid'

/-- A change between two other states. -/
theorem Shared.setThread_of_ne (hs : Shared s) {tid : Fin n} (h : t.fetchStatus ≠ .IcacheWaitRetry)
    (h' : (s.thread tid).fetchStatus ≠ .IcacheWaitRetry) : Shared (s.setThread tid t) :=
  hs.setThread ⟨fun ht => absurd ht h, fun ht => absurd ht h'⟩

/-! ## Translations -/

theorem Shared.buildInst (hs : Shared s) (tid : Fin n) :
    Ends (fun s' => Shared s' ∧ ∀ t, (s'.thread t).fetchStatus = (s.thread t).fetchStatus) Private
      (s.buildInst p tid) := by
  unfold Fetch.buildInst
  refine Ends.bind (P := fun _ => True) ?_ fun _ _ => Ends.bind (P := fun _ => True) ?_ fun _ _ => ?_
  · cases decide (s.numInst < p.fetchWidth) <;> trivial
  · cases decide ((s.thread tid).fetchQueue + 1 ≤ p.fetchQueueSize) <;> trivial
  · refine ⟨hs.setThread Iff.rfl, fun t => ?_⟩
    show (Function.update s.thread tid _ t).fetchStatus = _
    by_cases ht : t = tid
    · rw [ht, Function.update_self]
    · rw [Function.update_of_ne ht]

/-- A live translation belongs to a thread in `ItlbWait`. -/
theorem status_of_live (h : s.live req = true) :
    (s.thread req.tid).fetchStatus = .ItlbWait := by
  unfold Fetch.live at h
  rw [Bool.and_eq_true] at h
  exact of_decide_eq_true h.1

theorem not_waiting_of_live (h : s.live req = true) :
    (s.thread req.tid).fetchStatus ≠ .IcacheWaitRetry := by
  rw [status_of_live h]
  nofun

/-- A packet that the cache accepts. -/
theorem Shared.sent (hs : Shared s) (hport : s.portBlocked = false) (req : Request n) :
    Shared (s.sendTimingReq req true) := by
  refine ⟨?_, hs.packet, hs.waits, hs.owner, fun x hx => ?_⟩
  · show s.cacheBlocked = (s.portBlocked || false)
    rw [Bool.or_false]
    exact hs.blocked
  · rcases List.mem_append.mp hx with hx | hx
    · exact hs.sends x hx
    · obtain rfl := List.mem_singleton.mp hx
      exact hport

/-- A packet that the cache refuses, from a thread that then waits for the retry. -/
theorem Shared.refused (hs : Shared s) (hport : s.portBlocked = false)
    (ht : t.fetchStatus = .IcacheWaitRetry) (hother : ∀ tid, tid ≠ req.tid → s.retryTid ≠ some tid)
    :
    Shared { (s.sendTimingReq req false).setThread req.tid t with
      retryPkt := some req, retryTid := some req.tid, cacheBlocked := true } := by
  refine ⟨?_, rfl, fun _ _ => rfl, fun tid => ?_, fun x hx => ?_⟩
  · show true = (s.portBlocked || true)
    rw [Bool.or_true]
  · show (Function.update s.thread req.tid t tid).fetchStatus = _ ↔ some req.tid = some tid
    by_cases htid : tid = req.tid
    · subst htid
      rw [Function.update_self]
      exact ⟨fun _ => rfl, fun _ => ht⟩
    · rw [Function.update_of_ne htid, hs.owner tid]
      exact ⟨fun h => absurd h (hother tid htid), fun h => absurd (Option.some.inj h).symm htid⟩
  · rcases List.mem_append.mp hx with hx | hx
    · exact hs.sends x hx
    · obtain rfl := List.mem_singleton.mp hx
      exact hport

/-- A packet is sent to a cache that is not blocked. -/
theorem Shared.accessCache (hs : Shared s) (hlive : s.live req = true)
    (hfree : s.cacheBlocked = false) (accepted : Bool) :
    Ends Shared Private (s.accessCache req accepted) := by
  have hport : s.portBlocked = false := hs.blocked ▸ hfree
  have hnone : s.retryTid = none := by
    rcases Option.eq_none_or_eq_some s.retryTid with h | ⟨tid, h⟩
    · exact h
    · rw [hs.waits tid h] at hfree
      cases hfree
  have hpkt : s.retryPkt = none := Option.map_eq_none_iff.mp (hs.packet.trans hnone)
  let s₁ := s.setThread req.tid
    { s.thread req.tid with fetchBufferPC := req.vaddr, fetchBufferValid := false }
  have hs₁ : Shared s₁ := hs.setThread Iff.rfl
  unfold Fetch.accessCache
  cases accepted with
  | true =>
    refine (hs₁.sent hport req).setThread_of_ne nofun ?_
    show (Function.update s.thread req.tid _ req.tid).fetchStatus ≠ _
    rw [Function.update_self]
    exact not_waiting_of_live hlive
  | false =>
    show Ends _ _ (require _ (s.retryPkt = none) >>= _)
    rw [require_ok (decide_eq_true hpkt)]
    show Ends _ _ (require _ (s.retryTid = none) >>= _)
    rw [require_ok (decide_eq_true hnone)]
    refine hs₁.refused hport rfl fun tid _ h => ?_
    exact absurd (hnone.symm.trans h) nofun

/-- The condition on the end of a translation: a packet is sent only when the cache is not
blocked, and a fault is deferred only when the event is not scheduled. -/
def FindsFree (p : Params) (s : Fetch n) (req : Request n) : TlbReply → Prop
  | .translated paddr => p.isMemAddr paddr = true → s.cacheBlocked = false
  | .fault _ => s.full p req.tid = true → s.finishTranslationEvent = none

theorem Shared.finishTranslation (hs : Shared s) {reply : TlbReply} (accepted : Bool)
    (hfree : s.live req = true → FindsFree p s req reply) :
    Ends Shared Private (s.finishTranslation p req reply accepted) := by
  unfold Fetch.finishTranslation
  by_cases hlive : s.live req = true
  · rw [if_neg (by rw [hlive]; simp)]
    have hne := not_waiting_of_live hlive
    cases reply with
    | translated paddr =>
      dsimp only
      split_ifs with hmem
      · exact hs.accessCache hlive (hfree hlive hmem) accepted
      · exact hs.setThread_of_ne nofun hne
    | fault code =>
      show Ends _ _ (s.finishFault p code req)
      unfold Fetch.finishFault
      split_ifs with hfull
      · rw [require_ok (decide_eq_true (hfree hlive hfull))]
        exact hs.of_eq rfl rfl rfl rfl rfl rfl
      · refine (hs.buildInst req.tid).bind ?_
        rintro s' ⟨hs', hstatus⟩
        exact hs'.setThread_of_ne nofun (hstatus req.tid ▸ hne)
  · rw [if_pos (by simpa using hlive)]
    exact hs

theorem Shared.request (hs : Shared s) (hfree : s.cacheBlocked = false) (tid : Fin n)
    (vaddr : BitVec 64) : Shared (s.request p tid vaddr).2 := by
  have hne : (s.thread tid).fetchStatus ≠ .IcacheWaitRetry := by
    intro hwait
    rw [hs.waits tid ((hs.owner tid).mp hwait)] at hfree
    cases hfree
  have hs' : Shared { s with nextReq := s.nextReq + 1 } := hs.of_eq rfl rfl rfl rfl rfl rfl
  exact hs'.setThread_of_ne nofun hne

theorem Shared.fetchCacheLine (hs : Shared s) {tid : Fin n} {vaddr : BitVec 64} {interrupted : Bool}
    {now : Option TlbReply} {accepted : Bool}
    (hfree : ∀ reply ∈ now, s.cacheBlocked = false → interrupted = false →
      FindsFree p (s.request p tid vaddr).2 (s.request p tid vaddr).1 reply) :
    Ends (fun x => Shared x.1) Private
      (s.fetchCacheLine p tid vaddr interrupted now accepted) := by
  unfold Fetch.fetchCacheLine
  split_ifs with hblocked hinterrupted
  · exact hs
  · exact hs
  · rw [Bool.not_eq_true] at hblocked hinterrupted
    have hs' := hs.request (p := p) hblocked tid vaddr
    cases now with
    | none => exact hs'.of_eq rfl rfl rfl rfl rfl rfl
    | some reply =>
      exact (hs'.finishTranslation accepted fun _ => hfree reply rfl hblocked hinterrupted).bind
        fun _ h => h

/-! ## The cache, squashes and the rest of the cycle -/

theorem Shared.processCacheCompletion (hs : Shared s) (req : Request n) :
    Shared (s.processCacheCompletion req) := by
  unfold Fetch.processCacheCompletion
  dsimp only
  split_ifs with hstale hdrain
  · exact hs
  all_goals
    have hwait : (s.thread req.tid).fetchStatus = .IcacheWaitResponse := by
      by_contra hne
      exact hstale (by simp [hne])
    exact hs.setThread_of_ne nofun (by rw [hwait]; nofun)

theorem Shared.recvReqRetry (hs : Shared s) (accepted : Bool) :
    Ends Shared Private (s.recvReqRetry accepted) := by
  unfold Fetch.recvReqRetry
  dsimp only
  rcases hpkt : s.retryPkt with _ | req
  · have htid : s.retryTid = none := hs.packet.symm.trans (by rw [hpkt]; rfl)
    dsimp only
    rw [require_ok (decide_eq_true htid)]
    refine ⟨rfl, ?_, fun tid h => ?_, hs.owner, hs.sends⟩
    · exact hpkt ▸ hs.packet
    · exact absurd (htid.symm.trans h) nofun
  · have htid : s.retryTid = some req.tid := hs.packet.symm.trans (by rw [hpkt]; rfl)
    have hwait := (hs.owner req.tid).mpr htid
    dsimp only
    rw [require_ok (hs.waits req.tid htid), htid]
    show Ends _ _ (require _ ((s.thread req.tid).fetchStatus = .IcacheWaitRetry) >>= _)
    rw [require_ok (decide_eq_true hwait)]
    have hsends : ∀ x ∈ s.sends ++ [⟨req, false⟩], x.whileBlocked = false := by
      intro x hx
      rcases List.mem_append.mp hx with hx | hx
      · exact hs.sends x hx
      · obtain rfl := List.mem_singleton.mp hx
        rfl
    cases accepted with
    | true =>
      refine ⟨rfl, rfl, nofun, fun tid => ?_, hsends⟩
      show (Function.update s.thread req.tid _ tid).fetchStatus = _ ↔ none = some tid
      by_cases heq : tid = req.tid
      · subst heq
        rw [Function.update_self]
        exact ⟨nofun, nofun⟩
      · rw [Function.update_of_ne heq, hs.owner tid, htid]
        exact ⟨fun h => absurd (Option.some.inj h).symm heq, nofun⟩
    | false =>
      -- the packet goes on waiting
      exact ⟨hs.waits req.tid htid, rfl, fun _ _ => hs.waits req.tid htid,
        fun tid => htid ▸ hs.owner tid, hsends⟩

theorem Shared.doSquash (hs : Shared s) (tid : Fin n) :
    Ends Shared Private (s.doSquash tid) := by
  unfold Fetch.doSquash Fetch.dropRetry
  dsimp only
  by_cases hretry : s.retryTid = some tid
  · rw [if_pos hretry, require_ok (hs.waits tid hretry)]
    refine ⟨hs.blocked, rfl, nofun, fun tid' => ?_, hs.sends⟩
    show (Function.update s.thread tid _ tid').fetchStatus = _ ↔ none = some tid'
    by_cases heq : tid' = tid
    · subst heq
      rw [Function.update_self]
      exact ⟨nofun, nofun⟩
    · rw [Function.update_of_ne heq, hs.owner tid', hretry]
      exact ⟨fun h => absurd (Option.some.inj h).symm heq, nofun⟩
  · rw [if_neg hretry]
    exact hs.setThread_of_ne nofun fun hwait => hretry ((hs.owner tid).mp hwait)

theorem Shared.updateStatus (hs : Shared s) (tid : Fin n) :
    Shared (s.updateStatus tid) := by
  unfold Fetch.updateStatus
  dsimp only
  split_ifs with hdrain hblocked
  · refine hs.setThread_of_ne nofun fun hwait => ?_
    simp [hwait] at hdrain
  · refine hs.setThread_of_ne nofun fun hwait => ?_
    simp [hwait] at hblocked
  · exact hs

theorem Shared.resume (hs : Shared s) (tid : Fin n) : Shared (s.resume tid) := by
  unfold Fetch.resume
  split_ifs with hdone
  · exact hs.setThread_of_ne nofun (by rw [hdone]; nofun)
  · exact hs

theorem Shared.fetchInst (hs : Shared s) (tid : Fin n) (isQuiesce : Bool) :
    Ends Shared Private (s.fetchInst p tid isQuiesce) := by
  unfold Fetch.fetchInst
  by_cases hrun : ((s.thread tid).fetchStatus = .Running && !s.full p tid) = true
  · rw [if_pos hrun]
    refine (hs.buildInst tid).bind ?_
    rintro s' ⟨hs', hstatus⟩
    have hs'' : Shared { s' with numInst := s'.numInst + 1 } := hs'.of_eq rfl rfl rfl rfl rfl rfl
    have hrunning : (s'.thread tid).fetchStatus = .Running := by
      rw [hstatus tid]
      exact of_decide_eq_true (Bool.and_eq_true _ _ ▸ hrun).1
    cases isQuiesce with
    | true => exact hs''.setThread_of_ne nofun (by rw [show _ = _ from hrunning]; nofun)
    | false => exact hs''
  · rw [if_neg hrun]
    exact hs

/-! ## Runs -/

/-- The TLB and the cache answer only what they were asked, and the event is processed only
when it is scheduled. -/
def Answers (s : Fetch n) : FetchAction n → Prop
  | .finishTranslation k _ _ => k < s.inTlb.length
  | .recvTimingResp k => k < s.atCache.length
  | .finishTranslationEvent => s.finishTranslationEvent ≠ none
  | _ => True

/-- **The condition.**  A translation that ends finds the shared variables free that it needs. -/
def EndsFree (p : Params) (s : Fetch n) : FetchAction n → Prop
  | .fetchCacheLine tid vaddr interrupted now _ =>
      ∀ reply ∈ now, s.cacheBlocked = false → interrupted = false →
        FindsFree p (s.request p tid vaddr).2 (s.request p tid vaddr).1 reply
  | .finishTranslation k reply _ =>
      ∀ req ∈ s.inTlb[k]?, s.live req = true → FindsFree p s req reply
  | _ => True

theorem Shared.step (hs : Shared s) {a : FetchAction n} (ha : Answers s a ∧ EndsFree p s a) :
    Ends Shared Private (s.step p a) := by
  cases a with
  | fetchCacheLine tid vaddr interrupted now accepted =>
    exact (hs.fetchCacheLine ha.2).bind fun _ h => h
  | finishTranslation k reply accepted =>
    have hk : s.inTlb[k]? = some (s.inTlb.get ⟨k, ha.1⟩) := List.getElem?_eq_getElem ha.1
    have hs' : Shared { s with inTlb := s.inTlb.eraseIdx k } := hs.of_eq rfl rfl rfl rfl rfl rfl
    have hfree := ha.2 _ hk
    show Ends _ _ (orFail _ s.inTlb[k]? >>= _)
    rw [hk]
    refine hs'.finishTranslation accepted fun hlive => ?_
    cases reply with
    | translated paddr => exact hfree hlive
    | fault code => exact hfree hlive
  | finishTranslationEvent =>
    obtain ⟨⟨code, req⟩, hevent⟩ := Option.ne_none_iff_exists'.mp ha.1
    show Ends _ _ (orFail _ s.finishTranslationEvent >>= _)
    rw [hevent]
    show Ends _ _ (s.processFinishTranslation p code req)
    refine Ends.bind (P := fun _ => True) ?_ fun _ _ => ?_
    · cases decide (s.numInst < p.fetchWidth) <;> trivial
    · have hs' : Shared { s with finishTranslationEvent := none } :=
        hs.of_eq rfl rfl rfl rfl rfl rfl
      have hfree : FindsFree p { s with finishTranslationEvent := none } req (.fault code) :=
        fun _ => rfl
      exact hs'.finishTranslation false fun _ => hfree
  | recvReqRetry accepted => exact hs.recvReqRetry accepted
  | recvTimingResp k =>
    have hk : s.atCache[k]? = some (s.atCache.get ⟨k, ha.1⟩) := List.getElem?_eq_getElem ha.1
    have hs' : Shared { s with atCache := s.atCache.eraseIdx k } :=
      hs.of_eq rfl rfl rfl rfl rfl rfl
    show Ends _ _ (orFail _ s.atCache[k]? >>= _)
    rw [hk]
    exact hs'.processCacheCompletion _
  | doSquash tid => exact hs.doSquash tid
  | updateStatus tid => exact hs.updateStatus tid
  | resume tid => exact hs.resume tid
  | fetchInst tid isQuiesce => exact hs.fetchInst tid isQuiesce
  | toDecode tid => exact hs.setThread Iff.rfl
  | setDrain tid drain => exact hs.setThread Iff.rfl
  | endTick => exact hs.of_eq rfl rfl rfl rfl rfl rfl

/-- **Sharing the port.**  In every run of `n` threads in which each translation that ends finds
free what it needs, none of the assertions about the shared variables fails, and the event is
not scheduled twice.  In every state reached, no packet was sent while the cache owed a retry,
and the packet that waits for a retry, if there is one, is that of the only thread in
`IcacheWaitRetry`. -/
theorem fetch_shares_port (n : ℕ) (p : Params) (as : List (FetchAction n))
    (hallowed : Admitted (fun s a => Answers s a ∧ EndsFree p s a) (Fetch.step p) (Fetch.init n) as) :
    (∀ e, run (Fetch.step p) (Fetch.init n) as = .error e → e.ofSharing = false) ∧
      ∀ s, run (Fetch.step p) (Fetch.init n) as = .ok s →
        (∀ x ∈ s.sends, x.whileBlocked = false) ∧ s.cacheBlocked = s.portBlocked ∧
        s.retryPkt.map Request.tid = s.retryTid ∧
        ∀ tid, (s.thread tid).fetchStatus = .IcacheWaitRetry ↔ s.retryTid = some tid := by
  have hends := run_ends (fun _ _ h ha => Shared.step h ha) (shared_init n) hallowed
  refine ⟨fun e he => ?_, fun s hrun => ?_⟩
  · rw [he] at hends
    exact hends
  · rw [hrun] at hends
    have hs : Shared s := hends
    exact ⟨hs.sends, hs.blocked, hs.packet, hs.owner⟩

/-! ## Two threads in conflict -/

instance (s : Fetch n) (req : Request n) : ∀ reply, Decidable (FindsFree p s req reply)
  | .translated paddr =>
      inferInstanceAs (Decidable (p.isMemAddr paddr = true → s.cacheBlocked = false))
  | .fault _ =>
      inferInstanceAs (Decidable (s.full p req.tid = true → s.finishTranslationEvent = none))

instance (s : Fetch n) : ∀ a, Decidable (Answers s a)
  | .finishTranslation k _ _ => inferInstanceAs (Decidable (k < s.inTlb.length))
  | .recvTimingResp k => inferInstanceAs (Decidable (k < s.atCache.length))
  | .finishTranslationEvent => inferInstanceAs (Decidable (s.finishTranslationEvent ≠ none))
  | .fetchCacheLine .. | .recvReqRetry .. | .doSquash .. | .updateStatus .. | .resume ..
  | .fetchInst .. | .toDecode .. | .setDrain .. | .endTick => .isTrue trivial

instance (s : Fetch n) : ∀ a, Decidable (EndsFree p s a)
  | .fetchCacheLine tid vaddr interrupted now _ =>
      inferInstanceAs (Decidable (∀ reply ∈ now, s.cacheBlocked = false → interrupted = false →
        FindsFree p (s.request p tid vaddr).2 (s.request p tid vaddr).1 reply))
  | .finishTranslation k reply _ =>
      inferInstanceAs (Decidable (∀ req ∈ s.inTlb[k]?, s.live req = true →
        FindsFree p s req reply))
  | .finishTranslationEvent | .recvTimingResp .. | .recvReqRetry .. | .doSquash ..
  | .updateStatus .. | .resume .. | .fetchInst .. | .toDecode .. | .setDrain .. | .endTick =>
      .isTrue trivial

/-- Two instructions a cycle, queues of one instruction, and memory everywhere. -/
def testParams : Params := ⟨2, 1, 63, fun _ => true⟩

/-- A thread starts the translation of a line; the answer comes later. -/
def starts (tid : Fin 2) : FetchAction 2 := .fetchCacheLine tid 0x1000 false none false

/-- The packet of the first thread is refused, squashed and sent again by the second. -/
def takeTurns : List (FetchAction 2) :=
  [starts 0, .finishTranslation 0 (.translated 0x8000) false, .doSquash 0, .recvReqRetry true,
    starts 1, .finishTranslation 0 (.translated 0x8000) false, .recvReqRetry true,
    .recvTimingResp 0]

theorem fetch_shares_port_takeTurns :
    Admitted (fun s a => Answers s a ∧ EndsFree testParams s a) (Fetch.step testParams)
        (Fetch.init 2) takeTurns ∧
      ∃ s, run (Fetch.step testParams) (Fetch.init 2) takeTurns = .ok s ∧
        s.sends.length = 3 ∧ ∀ x ∈ s.sends, x.whileBlocked = false := by
  have hallowed : Admitted (fun s a => Answers s a ∧ EndsFree testParams s a)
      (Fetch.step testParams) (Fetch.init 2) takeTurns := by decide +kernel
  have hlength : ∃ s, run (Fetch.step testParams) (Fetch.init 2) takeTurns = .ok s ∧
      s.sends.length = 3 := by decide +kernel
  obtain ⟨s, hrun, hlen⟩ := hlength
  exact ⟨hallowed, s, hrun, hlen,
    ((fetch_shares_port 2 testParams takeTurns hallowed).2 s hrun).1⟩

/-- Both threads wait for the TLB, and the packet of the first is refused. -/
def refusedFirst : List (FetchAction 2) :=
  [starts 0, starts 1, .finishTranslation 0 (.translated 0x8000) false]

/-- The queues of both threads are full, and both their translations fault. -/
def faultTwice : List (FetchAction 2) :=
  [.fetchInst 0 false, .fetchInst 1 false, .endTick, starts 0, starts 1,
    .finishTranslation 0 (.fault 1) false, .finishTranslation 0 (.fault 1) false]

/-- **Conflicts.**  The translation of the second thread ends while the cache owes a retry, and its
packet is sent; if it is refused too, the assertion on `retryPkt` fails.  Two faults that have
to be deferred need the same event. -/
theorem second_thread_conflicts :
    (Admitted Answers (Fetch.step testParams) (Fetch.init 2)
        (refusedFirst ++ [.finishTranslation 0 (.translated 0x9000) true]) ∧
      ∃ s, run (Fetch.step testParams) (Fetch.init 2)
          (refusedFirst ++ [.finishTranslation 0 (.translated 0x9000) true]) = .ok s ∧
        ∃ x ∈ s.sends, x.whileBlocked = true) ∧
    (Admitted Answers (Fetch.step testParams) (Fetch.init 2)
        (refusedFirst ++ [.finishTranslation 0 (.translated 0x9000) false]) ∧
      (run (Fetch.step testParams) (Fetch.init 2)
        (refusedFirst ++ [.finishTranslation 0 (.translated 0x9000) false])).map Fetch.sends =
          .error .retryPktSet) ∧
    Admitted Answers (Fetch.step testParams) (Fetch.init 2) faultTwice ∧
      (run (Fetch.step testParams) (Fetch.init 2) faultTwice).map Fetch.sends =
        .error .eventScheduled := by
  refine ⟨⟨?_, ?_⟩, ⟨?_, ?_⟩, ?_, ?_⟩ <;> decide +kernel

end Gem5.Frontend
