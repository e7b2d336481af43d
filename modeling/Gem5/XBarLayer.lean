/-
# A layer of a crossbar

Embedding of `BaseXBar::Layer` (`mem/xbar.cc`): the arbitration point in front of one
destination port.  `sendRetry` hands control to the source port, which may call the
layer again before it returns; the operations that send a retry therefore end at that
call, and `retryReturn` is the rest of `retryWaiting`.

Around the layer stand the source ports and the peer.  A source port whose packet was
refused, by the layer or by the peer, does not send again before it gets a retry, and
the peer sends a retry only for a packet it refused.  What the environment knows of
the refusals is kept beside the layer: the ports that the layer refused in the order
of the refusals, and the port that the peer refused.
-/
import Gem5.Runs

namespace Gem5.Mem.XBar

open Runs

/-! ## The layer -/

/-- `Layer::State` -/
inductive State where
  | IDLE
  | BUSY
  | RETRY
  deriving DecidableEq, Repr

/-- `BaseXBar::Layer`; the release event is absent while it is not scheduled. -/
structure Layer (Port : Type) where
  state : State
  waitingForLayer : List Port
  waitingForPeer : Option Port
  releaseEvent : Option ℕ
  deriving DecidableEq, Repr

/-- The assertions of the layer, and those of scheduling an event. -/
inductive Fault where
  /-- `assert(state == BUSY)` -/
  | notBusy
  /-- `assert(until != 0)` -/
  | untilZero
  /-- the release event is scheduled already -/
  | scheduled
  /-- an event is scheduled in the past -/
  | inThePast
  /-- the port in `tryTiming` is waiting already -/
  | waitingAlready
  /-- `assert(waitingForPeer == NULL)` -/
  | peerEngaged
  /-- `assert(!waitingForLayer.empty())` -/
  | noOneWaiting
  /-- `assert(state == IDLE)` -/
  | notIdle
  /-- `assert(waitingForPeer != NULL)` -/
  | noRetryDue
  deriving DecidableEq, Repr

variable {Port : Type} [DecidableEq Port]

/-- `occupyLayer` at tick `now` -/
def Layer.occupyLayer (l : Layer Port) (now until_ : ℕ) : Except Fault (Layer Port) := do
  require .notBusy (l.state = .BUSY)
  require .untilZero (until_ ≠ 0)
  require .scheduled l.releaseEvent.isNone
  require .inThePast (now ≤ until_)
  return { l with releaseEvent := some until_ }

/-- `tryTiming` -/
def Layer.tryTiming (l : Layer Port) (src_port : Port) : Except Fault (Layer Port × Bool) :=
  if l.state = .BUSY ∨ l.waitingForPeer ≠ none then do
    require .waitingAlready (src_port ∉ l.waitingForLayer)
    return ({ l with waitingForLayer := l.waitingForLayer ++ [src_port] }, false)
  else .ok ({ l with state := .BUSY }, true)

/-- `succeededTiming` -/
def Layer.succeededTiming (l : Layer Port) (now busy_time : ℕ) : Except Fault (Layer Port) := do
  require .notBusy (l.state = .BUSY)
  l.occupyLayer now busy_time

/-- `failedTiming` -/
def Layer.failedTiming (l : Layer Port) (src_port : Port) (now busy_time : ℕ) :
    Except Fault (Layer Port) := do
  require .peerEngaged (l.waitingForPeer = none)
  require .notBusy (l.state = .BUSY)
  Layer.occupyLayer { l with waitingForPeer := some src_port } now busy_time

/-- `retryWaiting` up to the call of `sendRetry` on the port it returns. -/
def Layer.retryWaiting (l : Layer Port) : Except Fault (Layer Port × Option Port) :=
  match l.waitingForLayer with
  | [] => .error .noOneWaiting
  | retryingPort :: rest => do
      require .notIdle (l.state = .IDLE)
      return ({ l with state := .RETRY, waitingForLayer := rest }, some retryingPort)

/-- `retryWaiting` after `sendRetry` returned; `clockEdge` is the next clock edge. -/
def Layer.retryReturned (l : Layer Port) (now clockEdge : ℕ) : Except Fault (Layer Port) :=
  if l.state = .RETRY then Layer.occupyLayer { l with state := .BUSY } now clockEdge
  else .ok l

/-- `releaseLayer`, with the port that gets a retry. -/
def Layer.releaseLayer (l : Layer Port) : Except Fault (Layer Port × Option Port) := do
  require .notBusy (l.state = .BUSY)
  require .scheduled l.releaseEvent.isNone
  if l.waitingForLayer ≠ [] ∧ l.waitingForPeer = none then
    Layer.retryWaiting { l with state := .IDLE }
  else .ok ({ l with state := .IDLE }, none)

/-- `recvRetry`, with the port that gets a retry. -/
def Layer.recvRetry (l : Layer Port) : Except Fault (Layer Port × Option Port) :=
  match l.waitingForPeer with
  | none => .error .noRetryDue
  | some port =>
      let l' : Layer Port :=
        { l with waitingForLayer := port :: l.waitingForLayer, waitingForPeer := none }
      if l.state = .IDLE then l'.retryWaiting
      else if l.state = .BUSY then .ok (l', none)
      else .error .notBusy

/-! ## The layer among its ports -/

/-- The layer with what the environment knows. -/
structure World (Port : Type) where
  layer : Layer Port
  now : ℕ
  /-- the port whose `tryTiming` succeeded and whose packet is on its way to the peer -/
  sending : Option Port
  /-- inside a call of `sendRetry` -/
  retrying : Bool
  /-- the ports the layer refused, the earliest first -/
  refusedByLayer : List Port
  /-- the port the peer refused -/
  refusedByPeer : Option Port
  /-- the peer still has to send a retry -/
  peerOwesRetry : Bool
  deriving DecidableEq, Repr

/-- What happens at a layer. -/
inductive Action (Port : Type) where
  | tryTiming (src_port : Port)
  | succeededTiming (busy_time : ℕ)
  | failedTiming (busy_time : ℕ)
  | release
  | recvRetry
  | retryReturn
  | advance (t : ℕ)
  deriving DecidableEq, Repr

/-- A layer before its first packet. -/
def start (Port : Type) : World Port where
  layer := ⟨.IDLE, [], none, none⟩
  now := 0
  sending := none
  retrying := false
  refusedByLayer := []
  refusedByPeer := none
  peerOwesRetry := false

/-- A refused port waits for a retry. -/
def World.refused (w : World Port) (p : Port) : Bool :=
  w.refusedByPeer = some p ∨ p ∈ w.refusedByLayer

/-- A handler is running: a port is sending, or a retry is being sent. -/
def World.inHandler (w : World Port) : Bool := w.sending.isSome || w.retrying

/-- A port gets a retry: it is refused no longer, and `sendRetry` is running. -/
def World.sendRetry (w : World Port) : Layer Port × Option Port → World Port
  | (l, none) => { w with layer := l }
  | (l, some p) =>
      { w with
        layer := l
        retrying := true
        refusedByLayer := if w.refusedByPeer = some p then w.refusedByLayer
          else w.refusedByLayer.erase p
        refusedByPeer := if w.refusedByPeer = some p then none else w.refusedByPeer }

/-- The clock of the crossbar: the next edge is not in the past. -/
structure Clock where
  clockEdge : ℕ → ℕ
  le_clockEdge : ∀ t, t ≤ clockEdge t

variable (clk : Clock)

/-- One event.  Without a port that is sending, or a release that is due, the events
that end them do nothing. -/
def step (w : World Port) : Action Port → Except Fault (World Port)
  | .tryTiming p => do
      let (l, ok) ← w.layer.tryTiming p
      return if ok then { w with layer := l, sending := some p }
        else { w with layer := l, refusedByLayer := w.refusedByLayer ++ [p] }
  | .succeededTiming t =>
      match w.sending with
      | none => .ok w
      | some _ => do
          let l ← w.layer.succeededTiming w.now t
          return { w with layer := l, sending := none }
  | .failedTiming t =>
      match w.sending with
      | none => .ok w
      | some p => do
          let l ← w.layer.failedTiming p w.now t
          return { w with layer := l, sending := none, refusedByPeer := some p,
                          peerOwesRetry := true }
  | .release =>
      match w.layer.releaseEvent with
      | none => .ok w
      | some t => do
          let r ← Layer.releaseLayer { w.layer with releaseEvent := none }
          return World.sendRetry { w with now := t } r
  | .recvRetry => do
      let r ← w.layer.recvRetry
      return World.sendRetry { w with peerOwesRetry := false } r
  | .retryReturn => do
      let l ← w.layer.retryReturned w.now (clk.clockEdge w.now)
      return { w with layer := l, retrying := false }
  | .advance t => .ok { w with now := t }

/-- **The timing protocol.**  Refused ports keep quiet; a port does not send while its
own packet is on its way; an accepted packet is followed by its outcome, with a busy
time that is not zero and not past; the event queue runs while no handler does; the
peer sends the retries it owes. -/
def Allowed (w : World Port) : Action Port → Prop
  | .tryTiming p => w.refused p = false ∧ w.sending ≠ some p
  | .succeededTiming t => w.sending.isSome = true ∧ w.now ≤ t ∧ t ≠ 0
  | .failedTiming t => w.sending.isSome = true ∧ w.now ≤ t ∧ t ≠ 0
  | .release => w.inHandler = false ∧ w.layer.releaseEvent.isSome = true
  | .recvRetry => w.peerOwesRetry = true
  | .retryReturn => w.retrying = true ∧ w.sending = none
  | .advance t => w.inHandler = false ∧ w.now ≤ t ∧ ∀ r ∈ w.layer.releaseEvent, t ≤ r

instance (w : World Port) : (a : Action Port) → Decidable (Allowed w a)
  | .tryTiming p => inferInstanceAs (Decidable (w.refused p = false ∧ w.sending ≠ some p))
  | .succeededTiming t => inferInstanceAs (Decidable (w.sending.isSome = true ∧ w.now ≤ t ∧ t ≠ 0))
  | .failedTiming t => inferInstanceAs (Decidable (w.sending.isSome = true ∧ w.now ≤ t ∧ t ≠ 0))
  | .release =>
      inferInstanceAs (Decidable (w.inHandler = false ∧ w.layer.releaseEvent.isSome = true))
  | .recvRetry => inferInstanceAs (Decidable (w.peerOwesRetry = true))
  | .retryReturn => inferInstanceAs (Decidable (w.retrying = true ∧ w.sending = none))
  | .advance t => inferInstanceAs
      (Decidable (w.inHandler = false ∧ w.now ≤ t ∧ ∀ r ∈ w.layer.releaseEvent, t ≤ r))

/-! ## The invariant -/

/-- **Where the refused ports are.**  The layer's queue is the port the peer refused,
once the peer has sent its retry, before the ports the layer refused. -/
structure Inv (w : World Port) : Prop where
  queue : w.layer.waitingForLayer =
    (if w.peerOwesRetry then [] else w.refusedByPeer.toList) ++ w.refusedByLayer
  peer : w.layer.waitingForPeer = if w.peerOwesRetry then w.refusedByPeer else none
  owes : w.peerOwesRetry = true → w.refusedByPeer.isSome = true
  nodup : w.refusedByLayer.Nodup
  apart : ∀ p, w.refusedByPeer = some p → p ∉ w.refusedByLayer
  sending : ∀ p, w.sending = some p → w.layer.state = .BUSY ∧ w.layer.releaseEvent = none ∧
    w.refusedByPeer = none ∧ p ∉ w.refusedByLayer
  idle : w.layer.state = .IDLE → w.inHandler = false ∧ w.layer.releaseEvent = none ∧
    (w.peerOwesRetry = false → w.refusedByPeer = none ∧ w.refusedByLayer = [])
  retry : w.layer.state = .RETRY → w.retrying = true ∧ w.layer.releaseEvent = none ∧
    w.refusedByPeer = none
  busy : w.layer.state = .BUSY → w.sending = none → w.layer.releaseEvent.isSome = true
  released : ∀ r, w.layer.releaseEvent = some r → 0 < r ∧ w.now ≤ r ∧ w.layer.state = .BUSY
  started : w.layer.state = .RETRY ∨ w.layer.state = .IDLE ∧ w.peerOwesRetry = true → 0 < w.now

omit [DecidableEq Port] in
theorem inv_start : Inv (start Port) where
  queue := rfl
  peer := rfl
  owes := fun h => nomatch h
  nodup := List.nodup_nil
  apart := fun _ h => nomatch h
  sending := fun _ h => nomatch h
  idle := fun _ => ⟨rfl, rfl, fun _ => ⟨rfl, rfl⟩⟩
  retry := fun h => nomatch h
  busy := fun h => nomatch h
  released := fun _ h => nomatch h
  started := fun h => by
    rcases h with h | ⟨-, h⟩
    · cases h
    · cases h

omit [DecidableEq Port] in
/-- Whoever is engaged with the peer is known to owe or to have been refused. -/
theorem Inv.not_owes {w : World Port} (h : Inv w) (hnone : w.refusedByPeer = none) :
    w.peerOwesRetry = false := by
  rw [Bool.eq_false_iff]
  intro howes
  have hsome := h.owes howes
  rw [hnone] at hsome
  cases hsome

omit [DecidableEq Port] in
/-- While a packet is on its way the peer is engaged with no one. -/
theorem Inv.peer_free {w : World Port} (h : Inv w) (hnone : w.refusedByPeer = none) :
    w.layer.waitingForPeer = none ∧ w.layer.waitingForLayer = w.refusedByLayer := by
  have hpeer := h.peer
  have hqueue := h.queue
  rw [h.not_owes hnone, if_neg Bool.false_ne_true] at hpeer hqueue
  rw [hnone] at hqueue
  exact ⟨hpeer, hqueue⟩

omit [DecidableEq Port] in
theorem occupyLayer_ok {l : Layer Port} {now t : ℕ} (hbusy : l.state = .BUSY) (ht : t ≠ 0)
    (hfree : l.releaseEvent = none) (hle : now ≤ t) :
    l.occupyLayer now t = .ok { l with releaseEvent := some t } := by
  refine bind_eq_ok.mpr ⟨(), require_ok (by simp [hbusy]), ?_⟩
  refine bind_eq_ok.mpr ⟨(), require_ok (by simp [ht]), ?_⟩
  refine bind_eq_ok.mpr ⟨(), require_ok (by simp [hfree]), ?_⟩
  exact bind_eq_ok.mpr ⟨(), require_ok (by simp [hle]), rfl⟩

omit [DecidableEq Port] in
theorem releaseLayer_eq {l : Layer Port} (hbusy : l.state = .BUSY) (hfree : l.releaseEvent = none) :
    l.releaseLayer = if l.waitingForLayer ≠ [] ∧ l.waitingForPeer = none then
      Layer.retryWaiting { l with state := .IDLE } else .ok ({ l with state := .IDLE }, none) := by
  unfold Layer.releaseLayer
  rw [require_ok (by simp [hbusy]), require_ok (by simp [hfree])]
  rfl

/-! ## One event -/

theorem tryTiming_step {w : World Port} {p : Port} (h : Inv w) (ha : Allowed w (.tryTiming p)) :
    ∃ w', step clk w (.tryTiming p) = .ok w' ∧ Inv w' := by
  obtain ⟨hrefused, hsending⟩ := ha
  unfold World.refused at hrefused
  simp only [decide_eq_false_iff_not, not_or] at hrefused
  obtain ⟨hnotPeer, hnotLayer⟩ := hrefused
  by_cases hbusy : w.layer.state = .BUSY ∨ w.layer.waitingForPeer ≠ none
  · -- the port joins the end of the queue
    have hnotWaiting : p ∉ w.layer.waitingForLayer := by
      rw [h.queue, List.mem_append, not_or]
      refine ⟨?_, hnotLayer⟩
      split_ifs
      · exact List.not_mem_nil
      · rw [Option.mem_toList]
        exact hnotPeer
    have htry : w.layer.tryTiming p =
        .ok ({ w.layer with waitingForLayer := w.layer.waitingForLayer ++ [p] }, false) := by
      unfold Layer.tryTiming
      rw [if_pos hbusy]
      exact bind_eq_ok.mpr ⟨(), require_ok (by simp [hnotWaiting]), rfl⟩
    let l : Layer Port := { w.layer with waitingForLayer := w.layer.waitingForLayer ++ [p] }
    refine ⟨{ w with layer := l, refusedByLayer := w.refusedByLayer ++ [p] },
      bind_eq_ok.mpr ⟨_, htry, rfl⟩, ?_⟩
    exact
      { queue := by
          show w.layer.waitingForLayer ++ [p] = _ ++ (w.refusedByLayer ++ [p])
          rw [h.queue, List.append_assoc]
        peer := h.peer
        owes := h.owes
        nodup := List.nodup_append.mpr ⟨h.nodup, List.nodup_singleton p, fun a ha b hb => by
          rw [List.mem_singleton.mp hb]
          rintro rfl
          exact hnotLayer ha⟩
        apart := fun q hq => by
          show q ∉ w.refusedByLayer ++ [p]
          rw [List.mem_append, not_or, List.mem_singleton]
          exact ⟨h.apart q hq, fun heq => hnotPeer (heq ▸ hq)⟩
        sending := fun q hq => by
          obtain ⟨h1, h2, h3, h4⟩ := h.sending q hq
          refine ⟨h1, h2, h3, ?_⟩
          show q ∉ w.refusedByLayer ++ [p]
          rw [List.mem_append, not_or, List.mem_singleton]
          exact ⟨h4, fun heq => hsending (heq ▸ hq)⟩
        idle := fun hidle => by
          obtain ⟨h1, h2, -⟩ := h.idle hidle
          refine ⟨h1, h2, fun howes => ?_⟩
          change w.peerOwesRetry = false at howes
          rcases hbusy with hb | hb
          · rw [show w.layer.state = .IDLE from hidle] at hb
            cases hb
          · rw [h.peer, howes] at hb
            exact absurd rfl hb
        retry := h.retry
        busy := h.busy
        released := h.released
        started := h.started }
  · -- the layer is free for the port
    rw [not_or, not_not] at hbusy
    obtain ⟨hstate, hpeer⟩ := hbusy
    have htry : w.layer.tryTiming p = .ok ({ w.layer with state := .BUSY }, true) := by
      unfold Layer.tryTiming
      rw [if_neg]
      rw [not_or, not_not]
      exact ⟨hstate, hpeer⟩
    have howes : w.peerOwesRetry = false := by
      rw [Bool.eq_false_iff]
      intro howes
      have hsome := h.owes howes
      rw [h.peer, howes, if_pos rfl] at hpeer
      rw [hpeer] at hsome
      cases hsome
    have hfree : w.layer.releaseEvent = none ∧ w.refusedByPeer = none := by
      cases hs : w.layer.state with
      | IDLE => exact ⟨(h.idle hs).2.1, ((h.idle hs).2.2 howes).1⟩
      | BUSY => exact absurd hs hstate
      | RETRY => exact (h.retry hs).2
    let l : Layer Port := { w.layer with state := .BUSY }
    refine ⟨{ w with layer := l, sending := some p }, bind_eq_ok.mpr ⟨_, htry, rfl⟩, ?_⟩
    exact
      { queue := h.queue
        peer := h.peer
        owes := h.owes
        nodup := h.nodup
        apart := h.apart
        sending := fun q hq => by
          cases hq
          exact ⟨rfl, hfree.1, hfree.2, hnotLayer⟩
        idle := fun hidle => nomatch hidle
        retry := fun hretry => nomatch hretry
        busy := fun _ hnone => nomatch hnone
        released := fun r hr => by
          change w.layer.releaseEvent = some r at hr
          rw [hfree.1] at hr
          cases hr
        started := fun hs => by
          rcases hs with hs | ⟨hs, -⟩
          · cases hs
          · cases hs }

theorem succeededTiming_step {w : World Port} {t : ℕ} (h : Inv w)
    (ha : Allowed w (.succeededTiming t)) :
    ∃ w', step clk w (.succeededTiming t) = .ok w' ∧ Inv w' := by
  obtain ⟨hsome, hle, ht⟩ := ha
  obtain ⟨p, hp⟩ := Option.isSome_iff_exists.mp hsome
  obtain ⟨hbusy, hfree, hpeer, -⟩ := h.sending p hp
  have hok : w.layer.succeededTiming w.now t = .ok { w.layer with releaseEvent := some t } :=
    bind_eq_ok.mpr ⟨(), require_ok (by simp [hbusy]), occupyLayer_ok hbusy ht hfree hle⟩
  refine ⟨{ w with layer := { w.layer with releaseEvent := some t }, sending := none }, ?_, ?_⟩
  · unfold step
    rw [hp]
    exact bind_eq_ok.mpr ⟨_, hok, rfl⟩
  · exact
      { queue := h.queue
        peer := h.peer
        owes := h.owes
        nodup := h.nodup
        apart := h.apart
        sending := fun q hq => nomatch hq
        idle := fun hidle => by
          rw [show w.layer.state = .IDLE from hidle] at hbusy
          cases hbusy
        retry := fun hretry => by
          rw [show w.layer.state = .RETRY from hretry] at hbusy
          cases hbusy
        busy := fun _ _ => rfl
        released := fun r hr => by
          cases hr
          exact ⟨Nat.pos_of_ne_zero ht, hle, hbusy⟩
        started := h.started }

theorem failedTiming_step {w : World Port} {t : ℕ} (h : Inv w)
    (ha : Allowed w (.failedTiming t)) :
    ∃ w', step clk w (.failedTiming t) = .ok w' ∧ Inv w' := by
  obtain ⟨hsome, hle, ht⟩ := ha
  obtain ⟨p, hp⟩ := Option.isSome_iff_exists.mp hsome
  obtain ⟨hbusy, hfree, hpeer, hnotLayer⟩ := h.sending p hp
  obtain ⟨hengaged, hqueue⟩ := h.peer_free hpeer
  let l : Layer Port := { w.layer with waitingForPeer := some p, releaseEvent := some t }
  have hok : w.layer.failedTiming p w.now t = .ok l := by
    refine bind_eq_ok.mpr ⟨(), require_ok (by simp [hengaged]), ?_⟩
    refine bind_eq_ok.mpr ⟨(), require_ok (by simp [hbusy]), ?_⟩
    exact occupyLayer_ok hbusy ht hfree hle
  refine ⟨{ w with layer := l, sending := none, refusedByPeer := some p, peerOwesRetry := true },
    ?_, ?_⟩
  · unfold step
    rw [hp]
    exact bind_eq_ok.mpr ⟨_, hok, rfl⟩
  · exact
      { queue := hqueue
        peer := rfl
        owes := fun _ => rfl
        nodup := h.nodup
        apart := fun q hq => by
          cases hq
          exact hnotLayer
        sending := fun q hq => nomatch hq
        idle := fun hidle => by
          rw [show w.layer.state = .IDLE from hidle] at hbusy
          cases hbusy
        retry := fun hretry => by
          rw [show w.layer.state = .RETRY from hretry] at hbusy
          cases hbusy
        busy := fun _ _ => rfl
        released := fun r hr => by
          cases hr
          exact ⟨Nat.pos_of_ne_zero ht, hle, hbusy⟩
        started := fun hs => by
          rcases hs with hs | ⟨hs, -⟩
          · rw [show w.layer.state = .RETRY from hs] at hbusy
            cases hbusy
          · rw [show w.layer.state = .IDLE from hs] at hbusy
            cases hbusy }

/-- The port whose turn it is: a port that the peer refused goes first, the others in
the order in which the layer refused them. -/
def World.next (w : World Port) : Option Port :=
  w.refusedByPeer.or w.refusedByLayer.head?

/-- A layer that is idle, with ports in its queue and none engaged with the peer. -/
structure Ready (w : World Port) : Prop where
  queue : w.layer.waitingForLayer = w.refusedByPeer.toList ++ w.refusedByLayer
  nonempty : w.layer.waitingForLayer ≠ []
  peer : w.layer.waitingForPeer = none
  owes : w.peerOwesRetry = false
  nodup : w.refusedByLayer.Nodup
  apart : ∀ p, w.refusedByPeer = some p → p ∉ w.refusedByLayer
  sending : w.sending = none
  idle : w.layer.state = .IDLE
  released : w.layer.releaseEvent = none
  started : 0 < w.now

/-- **Handing out a retry**: it goes to the port whose turn it is. -/
theorem Ready.retryWaiting {w : World Port} (h : Ready w) :
    ∃ l p, w.layer.retryWaiting = .ok (l, some p) ∧ w.next = some p ∧
      Inv (w.sendRetry (l, some p)) := by
  cases hpeer : w.refusedByPeer with
  | some q =>
    have hqueue : w.layer.waitingForLayer = q :: w.refusedByLayer := by
      rw [h.queue, hpeer]
      rfl
    let l : Layer Port :=
      { w.layer with state := .RETRY, waitingForLayer := w.refusedByLayer }
    refine ⟨l, q, ?_, ?_, ?_⟩
    · unfold Layer.retryWaiting
      rw [hqueue]
      exact bind_eq_ok.mpr ⟨(), require_ok (by simp [h.idle]), rfl⟩
    · unfold World.next
      rw [hpeer]
      rfl
    · unfold World.sendRetry
      simp only [hpeer, if_true]
      exact
        { queue := by simp [l]
          peer := by simp [l, h.peer]
          owes := fun howes => nomatch h.owes.symm.trans howes
          nodup := h.nodup
          apart := fun p hp => nomatch hp
          sending := fun p hp => nomatch h.sending.symm.trans hp
          idle := fun hidle => nomatch hidle
          retry := fun _ => ⟨rfl, h.released, rfl⟩
          busy := fun hbusy => nomatch hbusy
          released := fun r hr => nomatch h.released.symm.trans hr
          started := fun _ => h.started }
  | none =>
    have hqueue : w.layer.waitingForLayer = w.refusedByLayer := by
      rw [h.queue, hpeer]
      rfl
    obtain ⟨p, rest, hrest⟩ := List.exists_cons_of_ne_nil (hqueue ▸ h.nonempty)
    let l : Layer Port := { w.layer with state := .RETRY, waitingForLayer := rest }
    refine ⟨l, p, ?_, ?_, ?_⟩
    · unfold Layer.retryWaiting
      rw [hqueue, hrest]
      exact bind_eq_ok.mpr ⟨(), require_ok (by simp [h.idle]), rfl⟩
    · unfold World.next
      rw [hpeer, hrest]
      rfl
    · have hnodup := h.nodup
      rw [hrest, List.nodup_cons] at hnodup
      unfold World.sendRetry
      simp only [hpeer, hrest, reduceCtorEq, if_false, List.erase_cons_head]
      exact
        { queue := by simp [l]
          peer := by simp [l, h.peer]
          owes := fun howes => nomatch h.owes.symm.trans howes
          nodup := hnodup.2
          apart := fun q hq => nomatch hq
          sending := fun q hq => nomatch h.sending.symm.trans hq
          idle := fun hidle => nomatch hidle
          retry := fun _ => ⟨rfl, h.released, rfl⟩
          busy := fun hbusy => nomatch hbusy
          released := fun r hr => nomatch h.released.symm.trans hr
          started := fun _ => h.started }

/-- The port that gets a retry is the only one that is no longer refused. -/
theorem refused_sendRetry {w : World Port} {l : Layer Port} {p q : Port}
    (hnext : w.next = some p) (hq : w.refused q = true)
    (hq' : (w.sendRetry (l, some p)).refused q = false) : w.next = some q := by
  rw [hnext]
  by_contra hne
  have hpq : q ≠ p := fun heq => hne (by rw [heq])
  unfold World.refused at hq hq'
  unfold World.sendRetry at hq'
  simp only [decide_eq_false_iff_not, not_or, decide_eq_true_eq] at hq hq'
  obtain ⟨h1, h2⟩ := hq'
  split_ifs at h1 h2 with hp
  · rcases hq with hq | hq
    · rw [hp] at hq
      exact hpq (Option.some.inj hq).symm
    · exact h2 hq
  · rcases hq with hq | hq
    · exact h1 hq
    · exact h2 ((List.mem_erase_of_ne hpq).mpr hq)

theorem release_step {w : World Port} (h : Inv w) (ha : Allowed w .release) :
    ∃ w', step clk w .release = .ok w' ∧ Inv w' ∧
      ∀ p, w.refused p = true → w'.refused p = false → w.next = some p := by
  obtain ⟨hhandler, hsome⟩ := ha
  obtain ⟨t, ht⟩ := Option.isSome_iff_exists.mp hsome
  obtain ⟨hpos, hle, hbusy⟩ := h.released t ht
  unfold World.inHandler at hhandler
  simp only [Bool.or_eq_false_iff, Option.isSome_eq_false_iff, Option.isNone_iff_eq_none] at hhandler
  obtain ⟨hsending, hretrying⟩ := hhandler
  let idleLayer : Layer Port := { w.layer with state := .IDLE, releaseEvent := none }
  let w₁ : World Port := { w with now := t, layer := idleLayer }
  have hrelease : Layer.releaseLayer { w.layer with releaseEvent := none } =
      if w.layer.waitingForLayer ≠ [] ∧ w.layer.waitingForPeer = none then idleLayer.retryWaiting
      else .ok (idleLayer, none) := releaseLayer_eq hbusy rfl
  by_cases hwait : w.layer.waitingForLayer ≠ [] ∧ w.layer.waitingForPeer = none
  · have howes : w.peerOwesRetry = false := by
      rw [Bool.eq_false_iff]
      intro howes
      have hengaged := h.peer
      have hrefused := h.owes howes
      rw [howes, if_pos rfl, hwait.2] at hengaged
      rw [← hengaged] at hrefused
      cases hrefused
    have hqueue := h.queue
    rw [howes, if_neg Bool.false_ne_true] at hqueue
    have hready : Ready w₁ :=
      { queue := hqueue
        nonempty := hwait.1
        peer := hwait.2
        owes := howes
        nodup := h.nodup
        apart := h.apart
        sending := hsending
        idle := rfl
        released := rfl
        started := hpos }
    obtain ⟨l, p, hretry, hnext, hinv⟩ := hready.retryWaiting
    refine ⟨w₁.sendRetry (l, some p), ?_, hinv, fun q hq hq' => ?_⟩
    · unfold step
      rw [ht]
      refine bind_eq_ok.mpr ⟨(l, some p), ?_, rfl⟩
      rw [hrelease, if_pos hwait]
      exact hretry
    · exact refused_sendRetry (w := w₁) hnext hq hq'
  · refine ⟨w₁, ?_, ?_, fun q hq hq' => ?_⟩
    · unfold step
      rw [ht]
      refine bind_eq_ok.mpr ⟨(idleLayer, none), ?_, rfl⟩
      rw [hrelease, if_neg hwait]
    · exact
        { queue := h.queue
          peer := h.peer
          owes := h.owes
          nodup := h.nodup
          apart := h.apart
          sending := fun p hp => nomatch hsending.symm.trans hp
          idle := fun _ => by
            refine ⟨?_, rfl, fun howes => ?_⟩
            · show (w.sending.isSome || w.retrying) = false
              rw [hsending, hretrying]
              rfl
            · have hengaged := h.peer
              have hqueue := h.queue
              rw [show w.peerOwesRetry = false from howes, if_neg Bool.false_ne_true]
                at hengaged hqueue
              have hempty : w.layer.waitingForLayer = [] := by
                by_contra hne
                exact hwait ⟨hne, hengaged⟩
              rw [hempty] at hqueue
              obtain ⟨hnone, hnil⟩ := List.append_eq_nil_iff.mp hqueue.symm
              exact ⟨Option.toList_eq_nil_iff.mp hnone, hnil⟩
          retry := fun hretry => nomatch hretry
          busy := fun hb => nomatch hb
          released := fun r hr => nomatch hr
          started := fun _ => hpos }
    · rw [show w₁.refused q = w.refused q from rfl, hq] at hq'
      cases hq'

theorem recvRetry_step {w : World Port} (h : Inv w) (ha : Allowed w .recvRetry) :
    ∃ w', step clk w .recvRetry = .ok w' ∧ Inv w' ∧
      ∀ p, w.refused p = true → w'.refused p = false → w.next = some p := by
  obtain ⟨q, hq⟩ := Option.isSome_iff_exists.mp (h.owes ha)
  have hpeer : w.layer.waitingForPeer = some q := by
    rw [h.peer, show w.peerOwesRetry = true from ha, if_pos rfl, hq]
  have hqueue : w.layer.waitingForLayer = w.refusedByLayer := by
    rw [h.queue, show w.peerOwesRetry = true from ha, if_pos rfl]
    rfl
  have hsending : w.sending = none := by
    cases hs : w.sending with
    | none => rfl
    | some p =>
      have hnone := (h.sending p hs).2.2.1
      rw [hq] at hnone
      cases hnone
  let l : Layer Port :=
    { w.layer with waitingForLayer := q :: w.layer.waitingForLayer, waitingForPeer := none }
  let w₁ : World Port := { w with peerOwesRetry := false, layer := l }
  have hqueue₁ : l.waitingForLayer = w.refusedByPeer.toList ++ w.refusedByLayer := by
    show q :: w.layer.waitingForLayer = _
    rw [hqueue, hq]
    rfl
  cases hstate : w.layer.state with
  | RETRY =>
    have hnone := (h.retry hstate).2.2
    rw [hq] at hnone
    cases hnone
  | IDLE =>
    have hready : Ready w₁ :=
      { queue := hqueue₁
        nonempty := List.cons_ne_nil _ _
        peer := rfl
        owes := rfl
        nodup := h.nodup
        apart := h.apart
        sending := hsending
        idle := hstate
        released := (h.idle hstate).2.1
        started := h.started (Or.inr ⟨hstate, ha⟩) }
    obtain ⟨l', p, hretry, hnext, hinv⟩ := hready.retryWaiting
    refine ⟨w₁.sendRetry (l', some p), ?_, hinv, fun r hr hr' => ?_⟩
    · refine bind_eq_ok.mpr ⟨(l', some p), ?_, rfl⟩
      unfold Layer.recvRetry
      rw [hpeer]
      simp only
      rw [if_pos hstate]
      exact hretry
    · exact refused_sendRetry (w := w₁) hnext hr hr'
  | BUSY =>
    refine ⟨w₁, ?_, ?_, fun r hr hr' => ?_⟩
    · refine bind_eq_ok.mpr ⟨(l, none), ?_, rfl⟩
      unfold Layer.recvRetry
      rw [hpeer]
      simp only
      rw [if_neg (by rw [hstate]; decide), if_pos hstate]
    · exact
        { queue := hqueue₁
          peer := rfl
          owes := fun howes => nomatch howes
          nodup := h.nodup
          apart := h.apart
          sending := fun p hp => nomatch hsending.symm.trans hp
          idle := fun hidle => nomatch hstate.symm.trans hidle
          retry := fun hretry => nomatch hstate.symm.trans hretry
          busy := h.busy
          released := h.released
          started := fun hs => by
            rcases hs with hs | ⟨hs, -⟩
            · cases hstate.symm.trans hs
            · cases hstate.symm.trans hs }
    · rw [show w₁.refused r = w.refused r from rfl, hr] at hr'
      cases hr'

theorem retryReturn_step {w : World Port} (h : Inv w) (ha : Allowed w .retryReturn) :
    ∃ w', step clk w .retryReturn = .ok w' ∧ Inv w' := by
  obtain ⟨hretrying, hsending⟩ := ha
  cases hstate : w.layer.state with
  | IDLE =>
    have hhandler := (h.idle hstate).1
    unfold World.inHandler at hhandler
    rw [hretrying, Bool.or_true] at hhandler
    cases hhandler
  | BUSY =>
    refine ⟨{ w with retrying := false }, ?_, ?_⟩
    · refine bind_eq_ok.mpr ⟨w.layer, ?_, rfl⟩
      unfold Layer.retryReturned
      rw [if_neg (by rw [hstate]; decide)]
    · exact
        { queue := h.queue
          peer := h.peer
          owes := h.owes
          nodup := h.nodup
          apart := h.apart
          sending := h.sending
          idle := fun hidle => nomatch hstate.symm.trans hidle
          retry := fun hretry => nomatch hstate.symm.trans hretry
          busy := h.busy
          released := h.released
          started := h.started }
  | RETRY =>
    obtain ⟨-, hfree, hpeer⟩ := h.retry hstate
    have hpos : 0 < w.now := h.started (Or.inl hstate)
    have hle := clk.le_clockEdge w.now
    let l : Layer Port :=
      { w.layer with state := .BUSY, releaseEvent := some (clk.clockEdge w.now) }
    refine ⟨{ w with layer := l, retrying := false }, ?_, ?_⟩
    · refine bind_eq_ok.mpr ⟨l, ?_, rfl⟩
      unfold Layer.retryReturned
      rw [if_pos hstate]
      exact occupyLayer_ok rfl (by omega) hfree hle
    · exact
        { queue := h.queue
          peer := h.peer
          owes := h.owes
          nodup := h.nodup
          apart := h.apart
          sending := fun p hp => nomatch hsending.symm.trans hp
          idle := fun hidle => nomatch hidle
          retry := fun hretry => nomatch hretry
          busy := fun _ _ => rfl
          released := fun r hr => by
            cases hr
            exact ⟨by omega, hle, rfl⟩
          started := fun hs => by
            rcases hs with hs | ⟨hs, -⟩
            · cases hs
            · cases hs }

theorem advance_step {w : World Port} {t : ℕ} (h : Inv w) (ha : Allowed w (.advance t)) :
    ∃ w', step clk w (.advance t) = .ok w' ∧ Inv w' := by
  obtain ⟨-, hle, hdue⟩ := ha
  exact ⟨{ w with now := t }, rfl,
    { queue := h.queue
      peer := h.peer
      owes := h.owes
      nodup := h.nodup
      apart := h.apart
      sending := h.sending
      idle := h.idle
      retry := h.retry
      busy := h.busy
      released := fun r hr => by
        obtain ⟨h1, -, h3⟩ := h.released r hr
        exact ⟨h1, hdue r hr, h3⟩
      started := fun hs => lt_of_lt_of_le (h.started hs) hle }⟩

/-- **Every event of the protocol is handled** without a failing assertion, keeps the
invariant, and hands a retry only to the port whose turn it is. -/
theorem inv_step {w : World Port} {a : Action Port} (h : Inv w) (ha : Allowed w a) :
    ∃ w', step clk w a = .ok w' ∧ Inv w' ∧
      ∀ p, w.refused p = true → w'.refused p = false → w.next = some p := by
  -- the events that send no retry leave everyone refused who was
  have hkeep : ∀ w' : World Port, (∀ p, w.refused p = true → w'.refused p = true) →
      ∀ p, w.refused p = true → w'.refused p = false → w.next = some p := by
    intro w' hmono p hp hp'
    rw [hmono p hp] at hp'
    cases hp'
  cases a with
  | tryTiming p =>
    obtain ⟨w', hw, hinv⟩ := tryTiming_step clk h ha
    refine ⟨w', hw, hinv, hkeep w' fun q hq => ?_⟩
    obtain ⟨⟨l, ok⟩, -, hr⟩ := bind_eq_ok.mp hw
    cases hr
    unfold World.refused at hq ⊢
    simp only [decide_eq_true_eq] at hq ⊢
    split_ifs
    · exact hq
    · exact hq.imp_right fun hmem => List.mem_append_left _ hmem
  | succeededTiming t =>
    obtain ⟨w', hw, hinv⟩ := succeededTiming_step clk h ha
    refine ⟨w', hw, hinv, hkeep w' fun q hq => ?_⟩
    simp only [step] at hw
    split at hw
    · cases hw
      exact hq
    · obtain ⟨l, -, hr⟩ := bind_eq_ok.mp hw
      cases hr
      exact hq
  | failedTiming t =>
    obtain ⟨w', hw, hinv⟩ := failedTiming_step clk h ha
    refine ⟨w', hw, hinv, hkeep w' fun q hq => ?_⟩
    obtain ⟨s, hs⟩ := Option.isSome_iff_exists.mp ha.1
    have hnone := (h.sending s hs).2.2.1
    simp only [step, hs] at hw
    obtain ⟨l, -, hr⟩ := bind_eq_ok.mp hw
    cases hr
    unfold World.refused at hq ⊢
    simp only [hnone, decide_eq_true_eq, reduceCtorEq, false_or] at hq ⊢
    exact Or.inr hq
  | release => exact release_step clk h ha
  | recvRetry => exact recvRetry_step clk h ha
  | retryReturn =>
    obtain ⟨w', hw, hinv⟩ := retryReturn_step clk h ha
    refine ⟨w', hw, hinv, hkeep w' fun q hq => ?_⟩
    obtain ⟨l, -, hr⟩ := bind_eq_ok.mp hw
    cases hr
    exact hq
  | advance t =>
    obtain ⟨w', hw, hinv⟩ := advance_step clk h ha
    refine ⟨w', hw, hinv, hkeep w' fun q hq => ?_⟩
    cases hw
    exact hq

/-! ## Runs -/

/-- **No waiter is lost.**  Every refused port, and no other, is in exactly one of
`waitingForLayer` and `waitingForPeer`, once; between handlers the layer is busy
exactly when its release is scheduled; an idle layer without an engaged peer has no one
waiting. -/
structure Sound (w : World Port) : Prop where
  refused_iff : ∀ p, w.refused p = true ↔
    p ∈ w.layer.waitingForLayer ∨ w.layer.waitingForPeer = some p
  exclusive : ∀ p, w.layer.waitingForPeer = some p → p ∉ w.layer.waitingForLayer
  once : w.layer.waitingForLayer.Nodup
  busy_iff : w.inHandler = false →
    (w.layer.state = .BUSY ↔ w.layer.releaseEvent.isSome = true)
  idle : w.layer.state = .IDLE → w.layer.waitingForPeer = none → w.layer.waitingForLayer = []

theorem Inv.sound {w : World Port} (h : Inv w) : Sound w where
  refused_iff := fun p => by
    unfold World.refused
    rw [decide_eq_true_eq, h.queue, h.peer, List.mem_append]
    cases howes : w.peerOwesRetry with
    | true =>
      rw [if_pos rfl, if_pos rfl]
      simp [or_comm]
    | false =>
      rw [if_neg Bool.false_ne_true, if_neg Bool.false_ne_true, Option.mem_toList]
      simp
  exclusive := fun p hp => by
    have hpeer := h.peer
    rw [hp] at hpeer
    split_ifs at hpeer with howes
    rw [h.queue, if_pos howes]
    exact h.apart p hpeer.symm
  once := by
    rw [h.queue]
    split_ifs
    · exact h.nodup
    · cases hpeer : w.refusedByPeer with
      | none => exact h.nodup
      | some q => exact List.nodup_cons.mpr ⟨h.apart q hpeer, h.nodup⟩
  busy_iff := fun hhandler => by
    unfold World.inHandler at hhandler
    simp only [Bool.or_eq_false_iff, Option.isSome_eq_false_iff, Option.isNone_iff_eq_none]
      at hhandler
    constructor
    · exact fun hbusy => h.busy hbusy hhandler.1
    · intro hsome
      obtain ⟨r, hr⟩ := Option.isSome_iff_exists.mp hsome
      exact (h.released r hr).2.2
  idle := fun hidle hnone => by
    have hpeer := h.peer
    rw [hnone] at hpeer
    have howes : w.peerOwesRetry = false := by
      rw [Bool.eq_false_iff]
      intro howes
      have hsome := h.owes howes
      rw [howes, if_pos rfl] at hpeer
      rw [← hpeer] at hsome
      cases hsome
    obtain ⟨h1, h2⟩ := (h.idle hidle).2.2 howes
    rw [h.queue, howes, h1, h2]
    rfl

/-- **The layer never loses a waiter.**  Whatever the ports, the peer and the event
queue do within the timing protocol, no assertion fails, the queues are sound in the
state that is reached, and in every further event a retry goes only to the port whose
turn it is. -/
theorem layer_never_loses_waiter (Port : Type) [DecidableEq Port] (clk : Clock)
    (as : List (Action Port)) (h : Admitted Allowed (step clk) (start Port) as) :
    ∃ w, run (step clk) (start Port) as = .ok w ∧ Sound w ∧
      ∀ a w', Allowed w a → step clk w a = .ok w' →
        ∀ p, w.refused p = true → w'.refused p = false → w.next = some p := by
  obtain ⟨w, hw, hinv⟩ := run_total (P := Inv) (fun w a hinv ha => by
    obtain ⟨w', hw', hinv', -⟩ := inv_step clk hinv ha
    exact ⟨w', hw', hinv'⟩) inv_start h
  refine ⟨w, hw, hinv.sound, fun a w' ha hstep p hp hp' => ?_⟩
  obtain ⟨w₁, hw₁, -, hturn⟩ := inv_step clk hinv ha
  rw [hstep] at hw₁
  cases hw₁
  exact hturn p hp hp'

/-- A clock with an edge at every tick. -/
def everyTick : Clock := ⟨id, fun _ => le_rfl⟩

/-- The peer refuses port 0, the layer refuses port 1; port 0 is retried first and does
not send. -/
def refusedTwice : List (Action ℕ) :=
  [.tryTiming 0, .failedTiming 1, .tryTiming 1, .release, .recvRetry, .retryReturn, .advance 1]

theorem layer_never_loses_waiter_refusedTwice :
    ∃ w, run (step everyTick) (start ℕ) refusedTwice = .ok w ∧ Sound w ∧
      ∀ a w', Allowed w a → step everyTick w a = .ok w' →
        ∀ p, w.refused p = true → w'.refused p = false → w.next = some p :=
  layer_never_loses_waiter ℕ everyTick refusedTwice (by decide +kernel)

end Gem5.Mem.XBar
