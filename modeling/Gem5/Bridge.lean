/-
# The bridge between two crossbars

Embedding of the timing path of `Bridge` (`mem/bridge.cc`).  Both ports keep a list of
deferred packets and one send event for its head; what they do to it is the same and
is stated once, on `SendQueue`.  The bridge reserves space for a response when it
accepts a request, and remembers a refusal in one flag, `retryReq`, that the departure
of a request or of a response answers.

A send hands control to the peer, which may call the bridge again before it answers.
A send is therefore two events: the offer of the head packet, and the answer of the
peer; a retry is the last thing its event does.
-/
import Gem5.Runs

namespace Gem5.Mem.Bridge

open Runs

/-! ## Deferred packets -/

/-- A request or response packet. -/
structure Packet where
  id : ℕ
  needsResponse : Bool
  cacheResponding : Bool
  deriving DecidableEq, Repr

/-- `DeferredPacket` -/
structure DeferredPacket where
  tick : ℕ
  pkt : Packet
  deriving DecidableEq, Repr

/-- The parameters of a bridge; an edge of its clock is not in the past. -/
structure Params where
  reqQueueLimit : ℕ
  respQueueLimit : ℕ
  delay : ℕ
  /-- `clockEdge(cycles)` at the current tick -/
  clockEdge : ℕ → ℕ → ℕ
  le_clockEdge : ∀ now cycles, now ≤ clockEdge now cycles

/-- The assertions of the bridge, and those of scheduling an event. -/
inductive Fault where
  /-- `panic_if(pkt->cacheResponding())` -/
  | cacheResponding
  /-- `assert(outstandingResponses != respQueueLimit)` -/
  | noSpaceForResponse
  /-- `assert(transmitList.size() != reqQueueLimit)` -/
  | reqQueueOverflow
  /-- `assert(!transmitList.empty())` -/
  | nothingToSend
  /-- `assert(req.tick <= curTick())`, `assert(resp.tick <= curTick())` -/
  | beforeItsTick
  /-- `assert(outstandingResponses != 0)` -/
  | noneOutstanding
  /-- the send event is scheduled already -/
  | scheduled
  /-- an event is scheduled in the past -/
  | inThePast
  deriving DecidableEq, Repr

/-- The `transmitList` and the `sendEvent` of a port, and how it stands with its peer:
the head packet is being offered, or was refused and waits for the peer's retry. -/
structure SendQueue where
  transmitList : List DeferredPacket
  sendEvent : Option ℕ
  sending : Bool
  owesRetry : Bool
  deriving DecidableEq, Repr

/-- `bridge.schedule(sendEvent, when)` -/
def SendQueue.schedule (q : SendQueue) (now when_ : ℕ) : Except Fault SendQueue := do
  require .scheduled q.sendEvent.isNone
  require .inThePast (now ≤ when_)
  return { q with sendEvent := some when_ }

/-- `schedTimingReq` and `schedTimingResp`: the send event is scheduled for the head. -/
def SendQueue.schedTiming (q : SendQueue) (now : ℕ) (pkt : Packet) (when_ : ℕ) :
    Except Fault SendQueue := do
  let q' ← if q.transmitList = [] then q.schedule now when_ else .ok q
  return { q' with transmitList := q'.transmitList ++ [⟨when_, pkt⟩] }

/-- `trySendTiming` up to the call of the peer. -/
def SendQueue.trySend (q : SendQueue) (now : ℕ) : Except Fault SendQueue :=
  match q.transmitList with
  | [] => .error .nothingToSend
  | head :: _ => do
      require .beforeItsTick (head.tick ≤ now)
      return { q with sending := true }

/-- `trySendTiming` after the peer accepted: the head leaves, and the next packet is
scheduled. -/
def SendQueue.sent (p : Params) (q : SendQueue) (now : ℕ) : Except Fault SendQueue :=
  match q.transmitList with
  | [] => .error .nothingToSend
  | [_] => .ok { q with transmitList := [], sending := false }
  | _ :: next :: rest =>
      SendQueue.schedule { q with transmitList := next :: rest, sending := false } now
        (max next.tick (p.clockEdge now 0))

/-- `trySendTiming` after the peer refused. -/
def SendQueue.refused (q : SendQueue) : SendQueue :=
  { q with sending := false, owesRetry := true }

/-! ## The bridge -/

/-- The bridge, with the lists of what it accepted, forwarded, received and delivered,
and the number of retries it sent to the requestor. -/
structure World where
  now : ℕ
  /-- the request queue of the memory-side port -/
  reqQueue : SendQueue
  /-- the response queue of the CPU-side port -/
  respQueue : SendQueue
  outstandingResponses : ℕ
  retryReq : Bool
  accepted : List Packet
  forwarded : List Packet
  received : List Packet
  delivered : List Packet
  retries : ℕ
  deriving DecidableEq, Repr

/-- An empty queue. -/
def SendQueue.empty : SendQueue := ⟨[], none, false, false⟩

/-- A bridge before its first packet. -/
def start : World := ⟨0, .empty, .empty, 0, false, [], [], [], [], 0⟩

variable (p : Params)

def World.reqQueueFull (w : World) : Bool := w.reqQueue.transmitList.length = p.reqQueueLimit

def World.respQueueFull (w : World) : Bool := w.outstandingResponses = p.respQueueLimit

/-- `retryStalledReq` -/
def World.retryStalledReq (w : World) : World :=
  if w.retryReq then { w with retryReq := false, retries := w.retries + 1 } else w

/-- `recvTimingReq` once there is room: space is reserved for the response, and the
request is queued. -/
def World.acceptReq (w : World) (pkt : Packet) (receive_delay : ℕ) : Except Fault World := do
  require .noSpaceForResponse (!pkt.needsResponse || !w.respQueueFull p)
  require .reqQueueOverflow !w.reqQueueFull p
  let q ← w.reqQueue.schedTiming w.now pkt (p.clockEdge w.now p.delay + receive_delay)
  return { w with
    reqQueue := q
    outstandingResponses := w.outstandingResponses + if pkt.needsResponse then 1 else 0
    accepted := w.accepted ++ [pkt] }

/-- `recvTimingReq`; `receive_delay` is what is left of the header and the payload. -/
def World.recvTimingReq (w : World) (pkt : Packet) (receive_delay : ℕ) : Except Fault World :=
  if pkt.cacheResponding then .error .cacheResponding
  else if w.retryReq then .ok w
  else if w.reqQueueFull p then .ok { w with retryReq := true }
  else if pkt.needsResponse && w.respQueueFull p then .ok { w with retryReq := true }
  else w.acceptReq p pkt receive_delay

/-- `recvTimingResp` -/
def World.recvTimingResp (w : World) (pkt : Packet) (receive_delay : ℕ) : Except Fault World := do
  let q ← w.respQueue.schedTiming w.now pkt (p.clockEdge w.now p.delay + receive_delay)
  return { w with respQueue := q, received := w.received ++ [pkt] }

/-- The rest of `BridgeRequestPort::trySendTiming` after the peer accepted. -/
def World.reqSent (w : World) : Except Fault World := do
  let q ← w.reqQueue.sent p w.now
  return World.retryStalledReq { w with
    reqQueue := q
    forwarded := w.forwarded ++ (w.reqQueue.transmitList.head?.map DeferredPacket.pkt).toList }

/-- The rest of `BridgeResponsePort::trySendTiming` after the peer accepted. -/
def World.respSent (w : World) : Except Fault World := do
  require .noneOutstanding (w.outstandingResponses ≠ 0)
  let q ← w.respQueue.sent p w.now
  let w' : World := { w with
    respQueue := q
    outstandingResponses := w.outstandingResponses - 1
    delivered := w.delivered ++ (w.respQueue.transmitList.head?.map DeferredPacket.pkt).toList }
  return if w.reqQueueFull p then w' else w'.retryStalledReq

/-- What happens at a bridge. -/
inductive Action where
  | recvTimingReq (pkt : Packet) (receive_delay : ℕ)
  | sendReqEvent
  | recvReqRetry
  | reqSent (accepted : Bool)
  | recvTimingResp (pkt : Packet) (receive_delay : ℕ)
  | sendRespEvent
  | recvRespRetry
  | respSent (accepted : Bool)
  | advance (t : ℕ)
  deriving DecidableEq, Repr

/-- One event. -/
def step (w : World) : Action → Except Fault World
  | .recvTimingReq pkt d => w.recvTimingReq p pkt d
  | .sendReqEvent => do
      let q ← SendQueue.trySend { w.reqQueue with sendEvent := none } w.now
      return { w with reqQueue := q }
  | .recvReqRetry => do
      let q ← SendQueue.trySend { w.reqQueue with owesRetry := false } w.now
      return { w with reqQueue := q }
  | .reqSent true => w.reqSent p
  | .reqSent false => .ok { w with reqQueue := w.reqQueue.refused }
  | .recvTimingResp pkt d => w.recvTimingResp p pkt d
  | .sendRespEvent => do
      let q ← SendQueue.trySend { w.respQueue with sendEvent := none } w.now
      return { w with respQueue := q }
  | .recvRespRetry => do
      let q ← SendQueue.trySend { w.respQueue with owesRetry := false } w.now
      return { w with respQueue := q }
  | .respSent true => w.respSent p
  | .respSent false => .ok { w with respQueue := w.respQueue.refused }
  | .advance t => .ok { w with now := t }

/-- **The timing protocol.**  A packet that was accepted is not sent again; a response
answers a forwarded request, or one that is just being offered, and once; peers answer
offers and send the retries they owe; events run at their ticks, and time passes
while nothing is being offered. -/
def Allowed (w : World) : Action → Prop
  | .recvTimingReq pkt _ => pkt.cacheResponding = false ∧ pkt ∉ w.accepted
  | .sendReqEvent => w.reqQueue.sendEvent = some w.now
  | .recvReqRetry => w.reqQueue.owesRetry = true
  | .reqSent _ => w.reqQueue.sending = true
  | .recvTimingResp pkt _ => pkt.needsResponse = true ∧ pkt ∉ w.received ∧
      (pkt ∈ w.forwarded ∨ w.reqQueue.sending = true ∧
        w.reqQueue.transmitList.head?.map DeferredPacket.pkt = some pkt)
  | .sendRespEvent => w.respQueue.sendEvent = some w.now
  | .recvRespRetry => w.respQueue.owesRetry = true
  | .respSent _ => w.respQueue.sending = true
  | .advance t => w.now ≤ t ∧ w.reqQueue.sending = false ∧ w.respQueue.sending = false ∧
      (∀ e ∈ w.reqQueue.sendEvent, t ≤ e) ∧ ∀ e ∈ w.respQueue.sendEvent, t ≤ e

instance (w : World) : (a : Action) → Decidable (Allowed w a)
  | .recvTimingReq pkt _ =>
      inferInstanceAs (Decidable (pkt.cacheResponding = false ∧ pkt ∉ w.accepted))
  | .sendReqEvent => inferInstanceAs (Decidable (w.reqQueue.sendEvent = some w.now))
  | .recvReqRetry => inferInstanceAs (Decidable (w.reqQueue.owesRetry = true))
  | .reqSent _ => inferInstanceAs (Decidable (w.reqQueue.sending = true))
  | .recvTimingResp pkt _ => inferInstanceAs (Decidable (pkt.needsResponse = true ∧
      pkt ∉ w.received ∧ (pkt ∈ w.forwarded ∨ w.reqQueue.sending = true ∧
        w.reqQueue.transmitList.head?.map DeferredPacket.pkt = some pkt)))
  | .sendRespEvent => inferInstanceAs (Decidable (w.respQueue.sendEvent = some w.now))
  | .recvRespRetry => inferInstanceAs (Decidable (w.respQueue.owesRetry = true))
  | .respSent _ => inferInstanceAs (Decidable (w.respQueue.sending = true))
  | .advance t => inferInstanceAs (Decidable (w.now ≤ t ∧ w.reqQueue.sending = false ∧
      w.respQueue.sending = false ∧ (∀ e ∈ w.reqQueue.sendEvent, t ≤ e) ∧
        ∀ e ∈ w.respQueue.sendEvent, t ≤ e))

/-! ## One queue -/

/-- **How a queue stands.**  A queue that holds packets has its send scheduled, is
offering its head, or waits for a retry, and the tick of its head is not later than
that. -/
inductive Phase (now : ℕ) : SendQueue → Prop
  | empty : Phase now .empty
  | scheduled (t : ℕ) (d : DeferredPacket) (ds : List DeferredPacket) (htick : d.tick ≤ t)
      (hnow : now ≤ t) : Phase now ⟨d :: ds, some t, false, false⟩
  | offering (d : DeferredPacket) (ds : List DeferredPacket) (htick : d.tick ≤ now) :
      Phase now ⟨d :: ds, none, true, false⟩
  | refused (d : DeferredPacket) (ds : List DeferredPacket) (htick : d.tick ≤ now) :
      Phase now ⟨d :: ds, none, false, true⟩

variable {q : SendQueue} {now : ℕ} {w : World}

theorem Phase.schedTiming {when_ : ℕ} (h : Phase now q) (pkt : Packet) (hle : now ≤ when_) :
    ∃ q', q.schedTiming now pkt when_ = .ok q' ∧ Phase now q' ∧
      q'.transmitList = q.transmitList ++ [⟨when_, pkt⟩] ∧ q'.sending = q.sending := by
  have hok : require Fault.inThePast (decide (now ≤ when_)) = .ok () :=
    require_ok (decide_eq_true hle)
  cases h with
  | empty =>
    refine ⟨⟨[⟨when_, pkt⟩], some when_, false, false⟩, ?_, .scheduled _ _ _ le_rfl hle, rfl, rfl⟩
    unfold SendQueue.schedTiming SendQueue.schedule
    rw [hok]
    rfl
  | scheduled t d ds htick hnow => exact ⟨_, rfl, .scheduled t d _ htick hnow, rfl, rfl⟩
  | offering d ds htick => exact ⟨_, rfl, .offering d _ htick, rfl, rfl⟩
  | refused d ds htick => exact ⟨_, rfl, .refused d _ htick, rfl, rfl⟩

/-- Offering the head when its event fires. -/
theorem Phase.trySend_event (h : Phase now q) (he : q.sendEvent = some now) :
    ∃ q', SendQueue.trySend { q with sendEvent := none } now = .ok q' ∧ Phase now q' ∧
      q'.transmitList = q.transmitList := by
  cases h with
  | empty => cases he
  | scheduled t d ds htick hnow =>
    cases he
    exact ⟨_, bind_eq_ok.mpr ⟨(), require_ok (decide_eq_true htick), rfl⟩, .offering d ds htick,
      rfl⟩
  | offering d ds htick => cases he
  | refused d ds htick => cases he

/-- Offering the head again when the peer sends its retry. -/
theorem Phase.trySend_retry (h : Phase now q) (howes : q.owesRetry = true) :
    ∃ q', SendQueue.trySend { q with owesRetry := false } now = .ok q' ∧ Phase now q' ∧
      q'.transmitList = q.transmitList := by
  cases h with
  | empty => cases howes
  | scheduled t d ds htick hnow => cases howes
  | offering d ds htick => cases howes
  | refused d ds htick =>
    exact ⟨_, bind_eq_ok.mpr ⟨(), require_ok (decide_eq_true htick), rfl⟩, .offering d ds htick,
      rfl⟩

/-- The peer accepts the head. -/
theorem Phase.sent (h : Phase now q) (hsending : q.sending = true) :
    ∃ d ds q', q.transmitList = d :: ds ∧ q.sent p now = .ok q' ∧ Phase now q' ∧
      q'.transmitList = ds := by
  cases h with
  | empty => cases hsending
  | scheduled t d ds htick hnow => cases hsending
  | refused d ds htick => cases hsending
  | offering d ds htick =>
    cases ds with
    | nil => exact ⟨d, [], .empty, rfl, rfl, .empty, rfl⟩
    | cons next rest =>
      have hle : now ≤ max next.tick (p.clockEdge now 0) :=
        le_trans (p.le_clockEdge now 0) (le_max_right _ _)
      refine ⟨d, next :: rest, ⟨next :: rest, some (max next.tick (p.clockEdge now 0)), false,
        false⟩, rfl, ?_, .scheduled _ _ _ (le_max_left _ _) hle, rfl⟩
      refine bind_eq_ok.mpr ⟨(), require_ok rfl, ?_⟩
      exact bind_eq_ok.mpr ⟨(), require_ok (decide_eq_true hle), rfl⟩

/-- The peer refuses the head. -/
theorem Phase.peer_refused (h : Phase now q) (hsending : q.sending = true) :
    Phase now q.refused := by
  cases h with
  | empty => cases hsending
  | scheduled t d ds htick hnow => cases hsending
  | refused d ds htick => cases hsending
  | offering d ds htick => exact .refused d ds htick

theorem Phase.advance {t : ℕ} (h : Phase now q) (hle : now ≤ t) (hsending : q.sending = false)
    (hdue : ∀ e ∈ q.sendEvent, t ≤ e) : Phase t q := by
  cases h with
  | empty => exact .empty
  | scheduled e d ds htick hnow => exact .scheduled e d ds htick (hdue e rfl)
  | offering d ds htick => cases hsending
  | refused d ds htick => exact .refused d ds (le_trans htick hle)

/-! ## The invariant -/

/-- The packets of a queue. -/
def SendQueue.pkts (q : SendQueue) : List Packet := q.transmitList.map DeferredPacket.pkt

/-- **Flow control.**  Requests and responses pass in order, each once; the counter of
outstanding responses is what was accepted and not yet delivered; a requestor that waits
for a retry waits for the departure of a queued request or of a response. -/
structure Inv (w : World) : Prop where
  reqPhase : Phase w.now w.reqQueue
  respPhase : Phase w.now w.respQueue
  requests : w.forwarded ++ w.reqQueue.pkts = w.accepted
  responses : w.delivered ++ w.respQueue.pkts = w.received
  nodup : w.accepted.Nodup
  received_nodup : w.received.Nodup
  received_sub : ∀ pkt ∈ w.received, pkt ∈ w.accepted ∧ pkt.needsResponse = true
  reqBound : w.reqQueue.transmitList.length ≤ p.reqQueueLimit
  outstanding : w.outstandingResponses + w.delivered.length =
    (w.accepted.filter Packet.needsResponse).length
  respBound : w.outstandingResponses ≤ p.respQueueLimit
  retry : 0 < p.reqQueueLimit → 0 < p.respQueueLimit → w.retryReq = true →
    w.reqQueue.transmitList ≠ [] ∨ 0 < w.outstandingResponses

theorem inv_start : Inv p start where
  reqPhase := .empty
  respPhase := .empty
  requests := rfl
  responses := rfl
  nodup := List.nodup_nil
  received_nodup := List.nodup_nil
  received_sub := fun _ h => absurd h List.not_mem_nil
  reqBound := Nat.zero_le _
  outstanding := rfl
  respBound := Nat.zero_le _
  retry := fun _ _ h => nomatch h

variable {p}

/-- A queued response is one of the outstanding ones. -/
theorem Inv.queued_le_outstanding (h : Inv p w) :
    w.respQueue.transmitList.length ≤ w.outstandingResponses := by
  have hsub : w.received ⊆ w.accepted.filter Packet.needsResponse := fun pkt hpkt =>
    List.mem_filter.mpr (h.received_sub pkt hpkt)
  have hle := (h.received_nodup.subperm hsub).length_le
  have hlen : w.delivered.length + w.respQueue.transmitList.length = w.received.length := by
    rw [← h.responses, List.length_append, SendQueue.pkts, List.length_map]
  have hout := h.outstanding
  omega

/-! ## One event -/

theorem recvTimingReq_step {pkt : Packet} {d : ℕ} (h : Inv p w)
    (ha : Allowed w (.recvTimingReq pkt d)) :
    ∃ w', step p w (.recvTimingReq pkt d) = .ok w' ∧ Inv p w' := by
  obtain ⟨hcache, hfresh⟩ := ha
  show ∃ w', w.recvTimingReq p pkt d = .ok w' ∧ Inv p w'
  unfold World.recvTimingReq
  rw [hcache, if_neg Bool.false_ne_true]
  by_cases hretry : w.retryReq = true
  · rw [if_pos hretry]
    exact ⟨w, rfl, h⟩
  rw [if_neg hretry]
  by_cases hfull : w.reqQueueFull p = true
  · -- the departure of a request will make room
    rw [if_pos hfull]
    refine ⟨_, rfl, { h with retry := fun hreq _ _ => Or.inl ?_ }⟩
    intro hnil
    change w.reqQueue.transmitList = [] at hnil
    unfold World.reqQueueFull at hfull
    rw [decide_eq_true_eq, hnil] at hfull
    exact absurd hfull (ne_of_lt hreq)
  rw [if_neg hfull]
  by_cases hresp : (pkt.needsResponse && w.respQueueFull p) = true
  · -- the departure of a response will make room
    rw [if_pos hresp]
    refine ⟨_, rfl, { h with retry := fun _ hpos _ => Or.inr ?_ }⟩
    unfold World.respQueueFull at hresp
    rw [Bool.and_eq_true, decide_eq_true_eq] at hresp
    show 0 < w.outstandingResponses
    rw [hresp.2]
    exact hpos
  rw [if_neg hresp]
  have hroom : w.reqQueue.transmitList.length ≠ p.reqQueueLimit := by
    unfold World.reqQueueFull at hfull
    rw [decide_eq_true_eq] at hfull
    exact hfull
  have hspace : pkt.needsResponse = true → w.outstandingResponses ≠ p.respQueueLimit := by
    unfold World.respQueueFull at hresp
    rw [Bool.and_eq_true, decide_eq_true_eq, not_and] at hresp
    exact hresp
  obtain ⟨q, hq, hphase, hlist, hsend⟩ := h.reqPhase.schedTiming pkt
    (le_trans (p.le_clockEdge w.now p.delay) (Nat.le_add_right _ d))
  refine ⟨_, bind_eq_ok.mpr ⟨(), require_ok ?_, bind_eq_ok.mpr ⟨(), require_ok ?_,
    bind_eq_ok.mpr ⟨q, hq, rfl⟩⟩⟩, ?_⟩
  · rw [Bool.not_eq_true, Bool.and_eq_false_iff] at hresp
    rcases hresp with hresp | hresp
    · rw [hresp]
      rfl
    · rw [hresp, Bool.not_false, Bool.or_true]
  · rw [Bool.not_eq_true] at hfull
    rw [hfull]
    rfl
  · have hbound := h.reqBound
    have hrb := h.respBound
    have hout := h.outstanding
    exact
      { reqPhase := hphase
        respPhase := h.respPhase
        requests := by
          show w.forwarded ++ q.pkts = w.accepted ++ [pkt]
          rw [← h.requests, SendQueue.pkts, hlist, List.map_append, List.append_assoc]
          rfl
        responses := h.responses
        nodup := List.nodup_append.mpr ⟨h.nodup, List.nodup_singleton _, fun a ha b hb => by
          rw [List.mem_singleton.mp hb]
          rintro rfl
          exact hfresh ha⟩
        received_nodup := h.received_nodup
        received_sub := fun r hr =>
          ⟨List.mem_append_left _ (h.received_sub r hr).1, (h.received_sub r hr).2⟩
        reqBound := by
          show q.transmitList.length ≤ _
          rw [hlist, List.length_append, List.length_singleton]
          omega
        outstanding := by
          show w.outstandingResponses + _ + w.delivered.length =
            ((w.accepted ++ [pkt]).filter _).length
          rw [List.filter_append, List.length_append]
          cases hneeds : pkt.needsResponse with
          | true =>
            simp only [if_true, List.filter_cons, hneeds, List.filter_nil,
              List.length_singleton]
            omega
          | false =>
            simp only [Bool.false_eq_true, if_false, List.filter_cons, hneeds, List.filter_nil,
              List.length_nil]
            omega
        respBound := by
          show w.outstandingResponses + _ ≤ _
          split_ifs with hneeds
          · have := hspace hneeds
            omega
          · omega
        retry := fun _ _ hset => absurd hset hretry }

/-- Offering a request changes neither lists nor counters. -/
theorem Inv.reqQueue_offer (h : Inv p w) (hphase : Phase w.now q)
    (hlist : q.transmitList = w.reqQueue.transmitList) : Inv p { w with reqQueue := q } :=
  { h with
    reqPhase := hphase
    requests := by
      show w.forwarded ++ q.pkts = w.accepted
      rw [SendQueue.pkts, hlist]
      exact h.requests
    reqBound := by
      show q.transmitList.length ≤ _
      rw [hlist]
      exact h.reqBound
    retry := fun h1 h2 h3 => by
      show q.transmitList ≠ [] ∨ _
      rw [hlist]
      exact h.retry h1 h2 h3 }

/-- Offering a response changes neither lists nor counters. -/
theorem Inv.respQueue_offer (h : Inv p w) (hphase : Phase w.now q)
    (hlist : q.transmitList = w.respQueue.transmitList) : Inv p { w with respQueue := q } :=
  { h with
    respPhase := hphase
    responses := by
      show w.delivered ++ q.pkts = w.received
      rw [SendQueue.pkts, hlist]
      exact h.responses }

theorem recvTimingResp_step {pkt : Packet} {d : ℕ} (h : Inv p w)
    (ha : Allowed w (.recvTimingResp pkt d)) :
    ∃ w', step p w (.recvTimingResp pkt d) = .ok w' ∧ Inv p w' := by
  obtain ⟨hneeds, hfresh, hasked⟩ := ha
  have haccepted : pkt ∈ w.accepted := by
    rw [← h.requests, List.mem_append]
    refine hasked.imp_right fun hoffered => ?_
    obtain ⟨dp, hdp, rfl⟩ := Option.map_eq_some_iff.mp hoffered.2
    exact List.mem_map_of_mem (List.mem_of_mem_head? hdp)
  obtain ⟨q, hq, hphase, hlist, -⟩ := h.respPhase.schedTiming pkt
    (le_trans (p.le_clockEdge w.now p.delay) (Nat.le_add_right _ d))
  refine ⟨_, bind_eq_ok.mpr ⟨q, hq, rfl⟩, ?_⟩
  exact
    { h with
      respPhase := hphase
      responses := by
        show w.delivered ++ q.pkts = w.received ++ [pkt]
        rw [← h.responses, SendQueue.pkts, hlist, List.map_append, List.append_assoc]
        rfl
      received_nodup := List.nodup_append.mpr ⟨h.received_nodup, List.nodup_singleton _,
        fun a ha b hb => by
          rw [List.mem_singleton.mp hb]
          rintro rfl
          exact hfresh ha⟩
      received_sub := fun r hr => by
        rcases List.mem_append.mp hr with hr | hr
        · exact h.received_sub r hr
        · rw [List.mem_singleton.mp hr]
          exact ⟨haccepted, hneeds⟩ }

theorem reqSent_step (h : Inv p w) (ha : Allowed w (.reqSent true)) :
    ∃ w', step p w (.reqSent true) = .ok w' ∧ Inv p w' := by
  obtain ⟨dp, ds, q, hlist, hq, hphase, hrest⟩ := h.reqPhase.sent p ha
  have hrequests := h.requests
  have hbound := h.reqBound
  rw [SendQueue.pkts, hlist] at hrequests
  rw [hlist, List.length_cons] at hbound
  refine ⟨_, bind_eq_ok.mpr ⟨q, hq, rfl⟩, ?_⟩
  rw [hlist]
  -- before the retry the flag may still be set; it is cleared with the retry
  unfold World.retryStalledReq
  have hlists : ∀ (b : Bool) (k : ℕ), (b = true → 0 < p.reqQueueLimit → 0 < p.respQueueLimit →
      q.transmitList ≠ [] ∨ 0 < w.outstandingResponses) →
      Inv p { w with
        reqQueue := q
        forwarded := w.forwarded ++ [dp.pkt]
        retryReq := b
        retries := k } := fun b k hb =>
    { h with
      reqPhase := hphase
      requests := by
        show (w.forwarded ++ [dp.pkt]) ++ q.pkts = w.accepted
        rw [← hrequests, SendQueue.pkts, hrest, List.append_assoc]
        rfl
      reqBound := by
        show q.transmitList.length ≤ _
        rw [hrest]
        omega
      retry := fun h1 h2 h3 => hb h3 h1 h2 }
  split_ifs with hretry
  · exact hlists false (w.retries + 1) fun hset => nomatch hset
  · exact hlists w.retryReq w.retries fun hset => absurd hset hretry

theorem respSent_step (h : Inv p w) (ha : Allowed w (.respSent true)) :
    ∃ w', step p w (.respSent true) = .ok w' ∧ Inv p w' := by
  obtain ⟨dp, ds, q, hlist, hq, hphase, hrest⟩ := h.respPhase.sent p ha
  have hqueued := h.queued_le_outstanding
  have hout := h.outstanding
  have hbound := h.respBound
  have hresponses := h.responses
  rw [SendQueue.pkts, hlist] at hresponses
  rw [hlist, List.length_cons] at hqueued
  refine ⟨_, bind_eq_ok.mpr ⟨(), require_ok ?_, bind_eq_ok.mpr ⟨q, hq, rfl⟩⟩, ?_⟩
  · rw [decide_eq_true_eq]
    omega
  rw [hlist]
  have hlists : ∀ (b : Bool) (k : ℕ), (b = true → 0 < p.reqQueueLimit → 0 < p.respQueueLimit →
      w.reqQueue.transmitList ≠ [] ∨ 0 < w.outstandingResponses - 1) →
      Inv p { w with
        respQueue := q
        outstandingResponses := w.outstandingResponses - 1
        delivered := w.delivered ++ [dp.pkt]
        retryReq := b
        retries := k } := fun b k hb =>
    { h with
      respPhase := hphase
      responses := by
        show (w.delivered ++ [dp.pkt]) ++ q.pkts = w.received
        rw [← hresponses, SendQueue.pkts, hrest, List.append_assoc]
        rfl
      outstanding := by
        show w.outstandingResponses - 1 + (w.delivered ++ [dp.pkt]).length =
          (w.accepted.filter Packet.needsResponse).length
        rw [List.length_append, List.length_singleton]
        omega
      respBound := by
        show w.outstandingResponses - 1 ≤ _
        omega
      retry := fun h1 h2 h3 => hb h3 h1 h2 }
  by_cases hfull : w.reqQueueFull p = true
  · -- a full request queue answers the requestor when a request departs
    rw [if_pos hfull]
    refine hlists w.retryReq w.retries fun _ hreq _ => Or.inl fun hnil => ?_
    unfold World.reqQueueFull at hfull
    rw [decide_eq_true_eq, hnil] at hfull
    exact absurd hfull (ne_of_lt hreq)
  · rw [if_neg hfull]
    unfold World.retryStalledReq
    split_ifs with hretry
    · exact hlists false (w.retries + 1) fun hset => nomatch hset
    · exact hlists w.retryReq w.retries fun hset => absurd hset hretry

/-- **Every event of the protocol is handled** without a failing assertion and keeps the
invariant. -/
theorem inv_step {a : Action} (h : Inv p w) (ha : Allowed w a) :
    ∃ w', step p w a = .ok w' ∧ Inv p w' := by
  cases a with
  | recvTimingReq pkt d => exact recvTimingReq_step h ha
  | recvTimingResp pkt d => exact recvTimingResp_step h ha
  | sendReqEvent =>
    obtain ⟨q, hq, hphase, hlist⟩ := h.reqPhase.trySend_event ha
    exact ⟨_, bind_eq_ok.mpr ⟨q, hq, rfl⟩, h.reqQueue_offer hphase hlist⟩
  | recvReqRetry =>
    obtain ⟨q, hq, hphase, hlist⟩ := h.reqPhase.trySend_retry ha
    exact ⟨_, bind_eq_ok.mpr ⟨q, hq, rfl⟩, h.reqQueue_offer hphase hlist⟩
  | sendRespEvent =>
    obtain ⟨q, hq, hphase, hlist⟩ := h.respPhase.trySend_event ha
    exact ⟨_, bind_eq_ok.mpr ⟨q, hq, rfl⟩, h.respQueue_offer hphase hlist⟩
  | recvRespRetry =>
    obtain ⟨q, hq, hphase, hlist⟩ := h.respPhase.trySend_retry ha
    exact ⟨_, bind_eq_ok.mpr ⟨q, hq, rfl⟩, h.respQueue_offer hphase hlist⟩
  | reqSent ok =>
    cases ok with
    | true => exact reqSent_step h ha
    | false => exact ⟨_, rfl, h.reqQueue_offer (h.reqPhase.peer_refused ha) rfl⟩
  | respSent ok =>
    cases ok with
    | true => exact respSent_step h ha
    | false => exact ⟨_, rfl, h.respQueue_offer (h.respPhase.peer_refused ha) rfl⟩
  | advance t =>
    obtain ⟨hle, hreq, hresp, hreqDue, hrespDue⟩ := ha
    exact ⟨_, rfl, { h with
      reqPhase := h.reqPhase.advance hle hreq hreqDue
      respPhase := h.respPhase.advance hle hresp hrespDue }⟩

/-! ## Runs -/

/-- The departures that answer a stalled requestor: that of a request, and that of a
response while the request queue has room. -/
def departs (p : Params) (w : World) (a : Action) : Prop :=
  a = .reqSent true ∨ a = .respSent true ∧ w.reqQueueFull p = false

/-- **What the bridge keeps.** -/
structure Sound (p : Params) (w : World) : Prop where
  reqBound : w.reqQueue.transmitList.length ≤ p.reqQueueLimit
  outstanding : w.outstandingResponses + w.delivered.length =
    (w.accepted.filter Packet.needsResponse).length
  respBound : w.outstandingResponses ≤ p.respQueueLimit
  requests : w.forwarded ++ w.reqQueue.pkts = w.accepted ∧ w.accepted.Nodup
  responses : w.delivered ++ w.respQueue.pkts = w.received ∧ w.received.Nodup
  /-- a queue that holds packets will offer its head -/
  offered : (w.reqQueue.transmitList ≠ [] → w.reqQueue.sendEvent.isSome = true ∨
      w.reqQueue.sending = true ∨ w.reqQueue.owesRetry = true) ∧
    (w.respQueue.transmitList ≠ [] → w.respQueue.sendEvent.isSome = true ∨
      w.respQueue.sending = true ∨ w.respQueue.owesRetry = true)

theorem Phase.offered (h : Phase now q) (hne : q.transmitList ≠ []) :
    q.sendEvent.isSome = true ∨ q.sending = true ∨ q.owesRetry = true := by
  cases h with
  | empty => exact absurd rfl hne
  | scheduled t d ds htick hnow => exact Or.inl rfl
  | offering d ds htick => exact Or.inr (Or.inl rfl)
  | refused d ds htick => exact Or.inr (Or.inr rfl)

theorem Inv.sound (h : Inv p w) : Sound p w where
  reqBound := h.reqBound
  outstanding := h.outstanding
  respBound := h.respBound
  requests := ⟨h.requests, h.nodup⟩
  responses := ⟨h.responses, h.received_nodup⟩
  offered := ⟨h.reqPhase.offered, h.respPhase.offered⟩

/-- A stalled requestor gets its retry. -/
theorem retryStalledReq_spec (w : World) : w.retryStalledReq.retryReq = false ∧
    w.retryStalledReq.retries = w.retries + if w.retryReq then 1 else 0 := by
  unfold World.retryStalledReq
  cases hretry : w.retryReq with
  | true => exact ⟨rfl, rfl⟩
  | false => exact ⟨hretry, rfl⟩

/-- **A departure issues the retry.** -/
theorem departs_retries {w' : World} {a : Action} (ha : departs p w a) (hs : step p w a = .ok w') :
    w'.retryReq = false ∧ w'.retries = w.retries + if w.retryReq then 1 else 0 := by
  rcases ha with rfl | ⟨rfl, hroom⟩
  · obtain ⟨q, -, hr⟩ := bind_eq_ok.mp hs
    cases hr
    exact retryStalledReq_spec _
  · obtain ⟨-, -, hr⟩ := bind_eq_ok.mp hs
    obtain ⟨q, -, hr⟩ := bind_eq_ok.mp hr
    cases hr
    rw [hroom, if_neg Bool.false_ne_true]
    exact retryStalledReq_spec _

/-- **The bridge's flow control.**  Whatever the two sides do within the timing protocol,
no assertion fails and the bridge is sound; with queues that can hold something, a set
`retryReq` has a request or a response whose departure will issue the retry. -/
theorem bridge_flow_control (p : Params) (as : List Action)
    (h : Admitted Allowed (step p) start as) :
    ∃ w, run (step p) start as = .ok w ∧ Sound p w ∧
      (0 < p.reqQueueLimit → 0 < p.respQueueLimit → w.retryReq = true →
        w.reqQueue.transmitList ≠ [] ∨ 0 < w.outstandingResponses ∧ w.reqQueueFull p = false) ∧
      ∀ a w', departs p w a → step p w a = .ok w' →
        w'.retryReq = false ∧ w'.retries = w.retries + if w.retryReq then 1 else 0 := by
  obtain ⟨w, hw, hinv⟩ := run_total (P := Inv p) (fun w a hinv ha => inv_step hinv ha)
    (inv_start p) h
  refine ⟨w, hw, hinv.sound, fun hreq hresp hset => ?_, fun a w' ha hs => departs_retries ha hs⟩
  by_cases hnil : w.reqQueue.transmitList = []
  · refine Or.inr ⟨(hinv.retry hreq hresp hset).resolve_left (not_not.mpr hnil), ?_⟩
    unfold World.reqQueueFull
    rw [hnil]
    exact decide_eq_false (ne_of_lt hreq)
  · exact Or.inl hnil

/-- A bridge with the given queue sizes and a clock edge at every tick. -/
def bridgeOf (reqQueueLimit respQueueLimit : ℕ) : Params where
  reqQueueLimit := reqQueueLimit
  respQueueLimit := respQueueLimit
  delay := 1
  clockEdge := fun now cycles => now + cycles
  le_clockEdge := fun _ _ => Nat.le_add_right _ _

/-- A request that needs a response. -/
def readOf (id : ℕ) : Packet := ⟨id, true, false⟩

theorem bridge_flow_control_stalled :
    ∃ w, run (step (bridgeOf 1 1)) start
        [.recvTimingReq (readOf 0) 0, .recvTimingReq (readOf 1) 0, .advance 1, .sendReqEvent] =
          .ok w ∧ Sound (bridgeOf 1 1) w ∧
      (0 < (bridgeOf 1 1).reqQueueLimit → 0 < (bridgeOf 1 1).respQueueLimit →
        w.retryReq = true → w.reqQueue.transmitList ≠ [] ∨
          0 < w.outstandingResponses ∧ w.reqQueueFull (bridgeOf 1 1) = false) ∧
      ∀ a w', departs (bridgeOf 1 1) w a → step (bridgeOf 1 1) w a = .ok w' →
        w'.retryReq = false ∧ w'.retries = w.retries + if w.retryReq then 1 else 0 :=
  bridge_flow_control (bridgeOf 1 1) _ (by decide +kernel)

/-- **A bridge without room** refuses its first request for good: nothing is queued and
no response is outstanding. -/
theorem stalled_without_room :
    ¬ ∀ (p : Params) (as : List Action) (w : World), Admitted Allowed (step p) start as →
      run (step p) start as = .ok w → w.retryReq = true →
        w.reqQueue.transmitList ≠ [] ∨ 0 < w.outstandingResponses := by
  intro h
  have hbad := h (bridgeOf 0 1) [.recvTimingReq (readOf 0) 0] _ (by decide +kernel) rfl rfl
  revert hbad
  decide

end Gem5.Mem.Bridge
