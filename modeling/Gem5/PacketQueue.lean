/-
# Packet queues

Embedding of `PacketQueue` (`mem/packet_queue.cc`): a port's list of deferred packets,
which are sent by an event of the queue when their tick has come, or after a retry when
the port refused one.

The port is the environment of the queue.  A `Reply` is what one call of `sendTiming`
does: whether the packet was accepted, and which packets were enqueued from inside the
call.  Time and the event belong to the event queue of the simulator; of it the state
keeps the current tick and the tick the send event is scheduled for.  Signalling the end
of a drain changes nothing here and is left out.
-/
import Gem5.Runs

open Runs

namespace Gem5.Mem

/-- `MaxTick`.  Ticks are 64 bits wide; only the addition in `schedSendEvent` can wrap
around. -/
def maxTick : ℕ := 2 ^ 64 - 1

/-- A packet, by its identity and what the queue reads of it. -/
structure Packet where
  id : ℕ
  addr : BitVec 64
  isSecure : Bool
  isExpressSnoop : Bool
  deriving DecidableEq, Repr

/-- `Packet::matchAddr(pkt)` -/
def Packet.matchAddr (p pkt : Packet) : Bool := p.addr = pkt.addr && p.isSecure = pkt.isSecure

structure DeferredPacket where
  tick : ℕ
  pkt : Packet
  deriving DecidableEq, Repr

/-- What stops the simulator. -/
inductive QueueFail where
  | sendInPast
  | expressSnoop
  | grownBeyondLimit
  | scheduledWhileWaiting
  | eventInPast
  | waitingOnRetry
  | notReady
  | notWaiting
  deriving DecidableEq, Repr

/-- The parameters of a queue. -/
structure QueueParams where
  forceOrder : Bool
  disableSanityCheck : Bool

/-- `PacketQueue`, with the current tick and the tick of the send event. -/
structure PacketQueue where
  transmitList : List DeferredPacket
  waitingOnRetry : Bool
  sendEvent : Option ℕ
  curTick : ℕ
  deriving DecidableEq, Repr

namespace PacketQueue

/-! ## The send event -/

def deferredPacketReady (q : PacketQueue) : Bool :=
  match q.transmitList with
  | [] => false
  | dp :: _ => dp.tick ≤ q.curTick

def deferredPacketReadyTime (q : PacketQueue) : ℕ :=
  match q.transmitList with
  | [] => maxTick
  | dp :: _ => dp.tick

/-- `em.schedule` and `em.reschedule` of the send event: not in the past. -/
def schedule (q : PacketQueue) (when_ : ℕ) : Except QueueFail PacketQueue := do
  require .eventInPast (q.curTick ≤ when_)
  return { q with sendEvent := some when_ }

/-- `schedSendEvent(when)` -/
def schedSendEvent (q : PacketQueue) (when_ : ℕ) : Except QueueFail PacketQueue :=
  if q.waitingOnRetry then do
    require .scheduledWhileWaiting (q.sendEvent = none)
    return q
  else if when_ ≠ maxTick then
    -- `curTick() + 1` wraps around
    let when_ := max when_ ((q.curTick + 1) % 2 ^ 64)
    match q.sendEvent with
    | none => q.schedule when_
    | some e => if when_ < e then q.schedule when_ else .ok q
  else .ok q

/-! ## Enqueueing -/

/-- The search from the end stops behind this packet. -/
def stopsAt (p : QueueParams) (pkt : Packet) (when_ : ℕ) (d : DeferredPacket) : Bool :=
  (p.forceOrder && d.pkt.matchAddr pkt) || d.tick ≤ when_

/-- `schedSendTiming(pkt, when)` -/
def schedSendTiming (p : QueueParams) (q : PacketQueue) (pkt : Packet) (when_ : ℕ) :
    Except QueueFail PacketQueue := do
  require .sendInPast (q.curTick ≤ when_)
  require .expressSnoop (!pkt.isExpressSnoop)
  require .grownBeyondLimit (p.disableSanityCheck || q.transmitList.length ≤ 128)
  match q.transmitList.rdropWhile fun d => !stopsAt p pkt when_ d with
  | [] => schedSendEvent { q with transmitList := ⟨when_, pkt⟩ :: q.transmitList } when_
  | before =>
      let behind := q.transmitList.rtakeWhile fun d => !stopsAt p pkt when_ d
      return { q with transmitList := before ++ ⟨when_, pkt⟩ :: behind }

/-! ## Sending -/

/-- What one call of `sendTiming` does: the packets it enqueues, and its result. -/
structure Reply where
  enqueued : List DeferredPacket
  accepted : Bool

/-- The calls of `schedSendTiming` from inside `sendTiming`. -/
def schedAll (p : QueueParams) (q : PacketQueue) : List DeferredPacket → Except QueueFail PacketQueue
  | [] => .ok q
  | d :: ds => do
      let q ← q.schedSendTiming p d.pkt d.tick
      q.schedAll p ds

/-- `sendDeferredPacket()` -/
def sendDeferredPacket (p : QueueParams) (q : PacketQueue) (reply : Reply) :
    Except QueueFail PacketQueue := do
  require .waitingOnRetry (!q.waitingOnRetry)
  require .notReady q.deferredPacketReady
  match q.transmitList with
  | [] => .error .notReady
  | dp :: rest => do
      let q ← schedAll p { q with transmitList := rest } reply.enqueued
      let q := { q with waitingOnRetry := !reply.accepted }
      if reply.accepted then q.schedSendEvent q.deferredPacketReadyTime
      else return { q with transmitList := dp :: q.transmitList }

/-- `processSendEvent()`, called by the event queue when the event is no longer scheduled. -/
def processSendEvent (p : QueueParams) (q : PacketQueue) (reply : Reply) :
    Except QueueFail PacketQueue := do
  let q := { q with sendEvent := none }
  require .waitingOnRetry (!q.waitingOnRetry)
  q.sendDeferredPacket p reply

/-- `retry()` -/
def retry (p : QueueParams) (q : PacketQueue) (reply : Reply) : Except QueueFail PacketQueue := do
  require .notWaiting q.waitingOnRetry
  sendDeferredPacket p { q with waitingOnRetry := false } reply

def init (curTick : ℕ) : PacketQueue := ⟨[], false, none, curTick⟩

end PacketQueue

/-! ## Runs -/

/-- What happens to a queue. -/
inductive QueueAction where
  | advance (t : ℕ)
  | schedSendTiming (pkt : Packet) (when_ : ℕ)
  | processSendEvent (reply : PacketQueue.Reply)
  | retry (reply : PacketQueue.Reply)

/-- A queue with its history: the packets in the order they were enqueued, and the packets
sent, each with the tick it was sent at. -/
structure QueueRun where
  queue : PacketQueue
  enqueued : List DeferredPacket
  sent : List (DeferredPacket × ℕ)

namespace QueueRun

/-- The packets sent by a call of `sendDeferredPacket`. -/
def sentBy (q : PacketQueue) (reply : PacketQueue.Reply) : List (DeferredPacket × ℕ) :=
  if reply.accepted then (q.transmitList.head?.map fun d => (d, q.curTick)).toList else []

def step (p : QueueParams) (s : QueueRun) : QueueAction → Except QueueFail QueueRun
  | .advance t => .ok { s with queue := { s.queue with curTick := t } }
  | .schedSendTiming pkt when_ => do
      let queue ← s.queue.schedSendTiming p pkt when_
      return ⟨queue, s.enqueued ++ [⟨when_, pkt⟩], s.sent⟩
  | .processSendEvent reply => do
      let queue ← s.queue.processSendEvent p reply
      return ⟨queue, s.enqueued ++ reply.enqueued, s.sent ++ sentBy s.queue reply⟩
  | .retry reply => do
      let queue ← s.queue.retry p reply
      return ⟨queue, s.enqueued ++ reply.enqueued, s.sent ++ sentBy s.queue reply⟩

def init (curTick : ℕ) : QueueRun := ⟨PacketQueue.init curTick, [], []⟩

end QueueRun

end Gem5.Mem
