/-
# The control loop of the load generators

Embedding of `LoadGenerator` (`dev/net/load_generator.cc`) and of the control loop of
`LoadGeneratorPcap` (`dev/net/load_generator_pcap.cc`).  A generator sends packets at a rate, and in
one of its modes compares, after a number of packets, how many were sent with how many came back,
and changes the rate.

The counters and the rate are unsigned, and one replay mode has no branch of its own.  The loop does
what it is for as long as no check finds more replies than packets, no check makes the rate zero,
and no packet is sent in that mode (`control_loop`); `control_loop_stops` is a run for each of the
three.
-/
import Gem5.PcapReplay

namespace Gem5.LoadGen

open Runs

/-! ## Events and counters -/

/-- What a check compared, and whether it found a loss. -/
structure Check where
  sent : ℕ
  received : ℕ
  loss : Bool
  deriving DecidableEq, Repr

/-- The events, counters and rate of a generator; `checks` is the history of its checks. -/
structure Loop where
  curTick : ℕ
  packetRate : ℕ
  lastTxCount : ℕ
  lastRxCount : ℕ
  sendPacketEvent : Option ℕ
  checkLossEvent : Option ℕ
  checks : List Check
  deriving DecidableEq, Repr

inductive Fault where
  /-- `1e12 / packetRate` of the rate 0 is not a tick -/
  | zeroRate
  /-- an event is scheduled already -/
  | alreadyScheduled
  /-- a fault in the replay of a record -/
  | pcap (f : PcapFault)
  deriving DecidableEq, Repr

inductive Event where
  | sendPacket
  | checkLoss
  deriving DecidableEq, Repr

/-- How long a check waits for packets in flight. -/
def kLossCheckWaitCycles : ℕ := 100000000

namespace Loop

/-- `frequency()` -/
def frequency (w : Loop) : Except Fault ℕ := do
  require .zeroRate (w.packetRate ≠ 0)
  return 10 ^ 12 / w.packetRate

/-- `schedule(sendPacketEvent, when)` -/
def scheduleSendPacket (w : Loop) (when_ : ℕ) : Except Fault Loop := do
  require .alreadyScheduled w.sendPacketEvent.isNone
  return { w with sendPacketEvent := some when_ }

/-- `schedule(checkLossEvent, when)` -/
def scheduleCheckLoss (w : Loop) (when_ : ℕ) : Except Fault Loop := do
  require .alreadyScheduled w.checkLossEvent.isNone
  return { w with checkLossEvent := some when_ }

/-- `schedule(sendPacketEvent, curTick() + frequency() + extra)` -/
def scheduleAtRate (w : Loop) (extra : ℕ) : Except Fault Loop := do
  let frequency ← w.frequency
  w.scheduleSendPacket (w.curTick + frequency + extra)

/-- `startup()` -/
def startup (packetRate startTick stopTick now : ℕ) : Loop where
  curTick := now
  packetRate := packetRate
  lastTxCount := 0
  lastRxCount := 0
  sendPacketEvent :=
    if stopTick < now then none
    else if startTick < now then some (now + 1)
    else some (startTick + 1)
  checkLossEvent := none
  checks := []

/-- The comparison of a check and the new rate: the differences are unsigned, and the rate has 32
bits. -/
def adjust (threshold incrementInterval : ℕ) (w : Loop) : Loop :=
  let difference := (w.lastTxCount + (2 ^ 64 - w.lastRxCount % 2 ^ 64)) % 2 ^ 64
  let check loss := w.checks ++ [⟨w.lastTxCount, w.lastRxCount, loss⟩]
  if difference < threshold then
    { w with
      packetRate := (w.packetRate + incrementInterval) % 2 ^ 32
      checks := check false }
  else
    let lower := (w.packetRate + (2 ^ 64 - incrementInterval)) % 2 ^ 64
    { w with
      packetRate := if lower < w.packetRate then lower % 2 ^ 32 else w.packetRate
      checks := check true }

/-- Whether the last check found a loss. -/
def lost (w : Loop) : Bool := (w.checks.getLast?.map Check.loss).getD false

/-- What `checkLoss()` of both generators does. -/
def checkLoss (threshold incrementInterval : ℕ) (w : Loop) : Except Fault Loop := do
  let w := w.adjust threshold incrementInterval
  let w ← w.scheduleAtRate (if w.lost then kLossCheckWaitCycles else 0)
  return { w with lastTxCount := 0, lastRxCount := 0 }

/-- `processRxPkt`, `delay` ticks after the last event.  The queue of the times at which packets were
sent feeds a statistic only and is left out; that its `front()` is read when it is empty, at a reply
too many, is undefined in C++ and not modelled. -/
def processRxPkt (delay : ℕ) (w : Loop) : Loop :=
  { w with curTick := w.curTick + delay, lastRxCount := w.lastRxCount + 1 }

/-- The event that is next. -/
def next (w : Loop) : Option (Event × ℕ) :=
  match w.sendPacketEvent, w.checkLossEvent with
  | some t, some u => if t ≤ u then some (.sendPacket, t) else some (.checkLoss, u)
  | some t, none => some (.sendPacket, t)
  | none, some u => some (.checkLoss, u)
  | none, none => none

/-- The event is taken off the event queue, at its tick. -/
def dispatch (w : Loop) : Event → ℕ → Loop
  | .sendPacket, t => { w with curTick := t, sendPacketEvent := none }
  | .checkLoss, t => { w with curTick := t, checkLossEvent := none }

end Loop

/-! ## The generator of packets -/

inductive Mode where
  | Static
  | Increment
  | Burst
  deriving DecidableEq, Repr

structure LoadGeneratorParams where
  mode : Mode
  packetRate : ℕ
  incrementInterval : ℕ
  startTick : ℕ
  stopTick : ℕ
  burstWidth : ℕ
  burstGap : ℕ
  packetRate_lt : packetRate < 2 ^ 32
  incrementInterval_lt : incrementInterval < 2 ^ 64

structure LoadGenerator where
  loop : Loop
  burstStartTick : ℕ
  deriving DecidableEq, Repr

/-- What happens to a generator. -/
inductive Op where
  | fire
  | processRxPkt (delay : ℕ)
  deriving DecidableEq, Repr

namespace LoadGenerator

def checkLossInterval : ℕ := 5000

/-- The constructor, and `startup()` at the tick `now`. -/
def startup (p : LoadGeneratorParams) (now : ℕ) : LoadGenerator :=
  ⟨.startup p.packetRate p.startTick p.stopTick now, 0⟩

/-- `LoadGenerator::sendPacket` -/
def sendPacket (p : LoadGeneratorParams) (w : LoadGenerator) : Except Fault LoadGenerator :=
  let loop := { w.loop with lastTxCount := w.loop.lastTxCount + 1 }
  if loop.curTick < p.stopTick then
    match p.mode with
    | .Increment =>
        if loop.lastTxCount = checkLossInterval then do
          let loop ← loop.scheduleCheckLoss (loop.curTick + kLossCheckWaitCycles)
          return { w with loop }
        else do
          let loop ← loop.scheduleAtRate 0
          return { w with loop }
    | .Static => do
        let loop ← loop.scheduleAtRate 0
        return { w with loop }
    | .Burst =>
        if p.burstWidth < (loop.curTick + (2 ^ 64 - w.burstStartTick % 2 ^ 64)) % 2 ^ 64 then do
          let burstStartTick := loop.curTick + p.burstGap
          let loop ← loop.scheduleSendPacket burstStartTick
          return ⟨loop, burstStartTick⟩
        else do
          let loop ← loop.scheduleAtRate 0
          return { w with loop }
  else .ok { w with loop }

/-- `LoadGenerator::checkLoss` -/
def checkLoss (p : LoadGeneratorParams) (w : LoadGenerator) : Except Fault LoadGenerator := do
  let loop ← w.loop.checkLoss 10 p.incrementInterval
  return { w with loop }

def step (p : LoadGeneratorParams) (w : LoadGenerator) : Op → Except Fault LoadGenerator
  | .fire =>
      match w.loop.next with
      | some (.sendPacket, t) => sendPacket p { w with loop := w.loop.dispatch .sendPacket t }
      | some (.checkLoss, t) => checkLoss p { w with loop := w.loop.dispatch .checkLoss t }
      | none => .ok w
  | .processRxPkt delay => .ok { w with loop := w.loop.processRxPkt delay }

end LoadGenerator

/-! ## The generator that replays a trace -/

inductive ReplayMode where
  | SimpleReplay
  | ReplayAndAdjustThroughput
  | ConstThroughput
  deriving DecidableEq, Repr

structure LoadGeneratorPcapParams extends PcapParams where
  replayMode : ReplayMode
  packetRate : ℕ
  incrementInterval : ℕ
  startTick : ℕ
  stopTick : ℕ
  uninit : ℕ → UInt8
  packetRate_lt : packetRate < 2 ^ 32
  incrementInterval_lt : incrementInterval < 2 ^ 64

/-- The generator; `ended` once the simulation loop is left. -/
structure LoadGeneratorPcap where
  loop : Loop
  ended : Bool
  deriving DecidableEq, Repr

/-- What happens to a generator: `fire` with the record that `pcap_next_ex` returns if a packet is
sent, or none at the end of the trace. -/
inductive PcapOp where
  | fire (record : Option Record)
  | processRxPkt (delay : ℕ)

namespace LoadGeneratorPcap

def kCheckLossInterval : ℕ := 100

def startup (p : LoadGeneratorPcapParams) (now : ℕ) : LoadGeneratorPcap :=
  ⟨.startup p.packetRate p.startTick p.stopTick now, false⟩

/-- `LoadGeneratorPcap::sendPacket`, once a packet is sent. -/
def packetSent (p : LoadGeneratorPcapParams) (loop : Loop) : Except Fault Loop :=
  let loop := { loop with lastTxCount := loop.lastTxCount + 1 }
  if loop.curTick < p.stopTick then
    match p.replayMode with
    | .ConstThroughput => loop.scheduleAtRate 0
    | .ReplayAndAdjustThroughput =>
        if loop.lastTxCount = kCheckLossInterval then
          loop.scheduleCheckLoss (loop.curTick + kLossCheckWaitCycles)
        else loop.scheduleAtRate 0
    | .SimpleReplay => .ok loop
  else .ok loop

/-- `LoadGeneratorPcap::sendPacket`, once it is known what becomes of a record. -/
def replayed (p : LoadGeneratorPcapParams) (loop : Loop) : Outcome → Except Fault Loop
  | .skipped => loop.scheduleSendPacket (loop.curTick + 1)
  | .sent _ => packetSent p loop

/-- `LoadGeneratorPcap::sendPacket` -/
def sendPacket (p : LoadGeneratorPcapParams) (w : LoadGeneratorPcap) (record : Option Record) :
    Except Fault LoadGeneratorPcap :=
  match record with
  | none => .ok { w with ended := true }
  | some r => do
      let outcome ← (replay p.toPcapParams p.uninit r).mapError .pcap
      let loop ← replayed p w.loop outcome
      return { w with loop }

/-- `LoadGeneratorPcap::checkLoss`: the simulation is left when the rate is zero. -/
def checkLoss (p : LoadGeneratorPcapParams) (w : LoadGeneratorPcap) :
    Except Fault LoadGeneratorPcap := do
  let loop ← w.loop.checkLoss 5 p.incrementInterval
  return { w with loop, ended := w.ended || (loop.lost && loop.packetRate = 0) }

def step (p : LoadGeneratorPcapParams) (w : LoadGeneratorPcap) :
    PcapOp → Except Fault LoadGeneratorPcap
  | .fire record =>
      match w.loop.next with
      | some (.sendPacket, t) =>
          sendPacket p { w with loop := w.loop.dispatch .sendPacket t } record
      | some (.checkLoss, t) => checkLoss p { w with loop := w.loop.dispatch .checkLoss t }
      | none => .ok w
  | .processRxPkt delay => .ok { w with loop := w.loop.processRxPkt delay }

end LoadGeneratorPcap

/-! ## The invariant of the loop -/

/-- What of a generator its control loop depends on; `checking` if its mode has checks, after
`interval` packets. -/
structure Control where
  stopTick : ℕ
  interval : ℕ
  threshold : ℕ
  incrementInterval : ℕ
  checking : Bool
  interval_pos : 0 < interval
  interval_lt : interval < 2 ^ 64
  incrementInterval_lt : incrementInterval < 2 ^ 64

/-- **A check that finds what is there**: no more replies than packets, and a new rate that is not
zero. -/
def CheckHolds (c : Control) (w : Loop) : Prop :=
  w.lastRxCount ≤ w.lastTxCount ∧
  if w.lastTxCount < w.lastRxCount + c.threshold then
    (w.packetRate + c.incrementInterval) % 2 ^ 32 ≠ 0
  else w.packetRate ≠ c.incrementInterval

instance (c : Control) (w : Loop) : Decidable (CheckHolds c w) :=
  inferInstanceAs (Decidable (_ ∧ _))

/-- The checks declare a loss for the packets that are missing. -/
def ChecksRight (c : Control) (w : Loop) : Prop :=
  ∀ k ∈ w.checks, k.loss = true ↔ k.received + c.threshold ≤ k.sent

/-- The loop between two events. -/
structure Sound (c : Control) (ended : Bool) (w : Loop) : Prop where
  rate : 0 < w.packetRate
  rate_lt : w.packetRate < 2 ^ 32
  checks : ChecksRight c w
  single : w.sendPacketEvent = none ∨ w.checkLossEvent = none
  active : w.curTick < c.stopTick → ended = false →
    w.sendPacketEvent.isSome ∨ w.checkLossEvent.isSome
  sending : w.sendPacketEvent.isSome → c.checking = true → w.lastTxCount < c.interval
  waiting : w.checkLossEvent.isSome → c.checking = true ∧ w.lastTxCount = c.interval

/-- The loop inside an event: nothing is scheduled. -/
structure Busy (c : Control) (w : Loop) : Prop where
  rate : 0 < w.packetRate
  rate_lt : w.packetRate < 2 ^ 32
  checks : ChecksRight c w
  sendPacketEvent : w.sendPacketEvent = none
  checkLossEvent : w.checkLossEvent = none

variable {c : Control} {ended : Bool} {w : Loop}

/-- The generator is done. -/
theorem Busy.stopped (h : Busy c w) (hstop : c.stopTick ≤ w.curTick ∨ ended = true) :
    Sound c ended w where
  rate := h.rate
  rate_lt := h.rate_lt
  checks := h.checks
  single := .inl h.sendPacketEvent
  active hlt hended := by
    rcases hstop with hstop | hstop
    · exact absurd hlt (Nat.not_lt.mpr hstop)
    · exact absurd hstop (hended ▸ Bool.false_ne_true)
  sending hsome := by
    rw [h.sendPacketEvent] at hsome
    cases hsome
  waiting hsome := by
    rw [h.checkLossEvent] at hsome
    cases hsome

/-- The next packet is scheduled. -/
theorem Busy.sending (h : Busy c w) (t : ℕ)
    (hcount : c.checking = true → w.lastTxCount < c.interval) :
    Sound c ended { w with sendPacketEvent := some t } where
  rate := h.rate
  rate_lt := h.rate_lt
  checks := h.checks
  single := .inr h.checkLossEvent
  active _ _ := .inl rfl
  sending _ := hcount
  waiting hsome := by
    rw [h.checkLossEvent] at hsome
    cases hsome

/-- A check is scheduled. -/
theorem Busy.waiting (h : Busy c w) (t : ℕ) (hchecking : c.checking = true)
    (hcount : w.lastTxCount = c.interval) :
    Sound c ended { w with checkLossEvent := some t } where
  rate := h.rate
  rate_lt := h.rate_lt
  checks := h.checks
  single := .inl h.sendPacketEvent
  active _ _ := .inr rfl
  sending hsome := by
    rw [h.sendPacketEvent] at hsome
    cases hsome
  waiting _ := ⟨hchecking, hcount⟩

theorem Busy.scheduleSendPacket_eq (h : Busy c w) (t : ℕ) :
    w.scheduleSendPacket t = .ok { w with sendPacketEvent := some t } := by
  unfold Loop.scheduleSendPacket
  rw [h.sendPacketEvent]
  rfl

theorem Busy.scheduleCheckLoss_eq (h : Busy c w) (t : ℕ) :
    w.scheduleCheckLoss t = .ok { w with checkLossEvent := some t } := by
  unfold Loop.scheduleCheckLoss
  rw [h.checkLossEvent]
  rfl

theorem Busy.scheduleAtRate_eq (h : Busy c w) (extra : ℕ) :
    w.scheduleAtRate extra =
      .ok { w with sendPacketEvent := some (w.curTick + 10 ^ 12 / w.packetRate + extra) } := by
  have hfrequency : w.frequency = .ok (10 ^ 12 / w.packetRate) := by
    unfold Loop.frequency
    rw [decide_eq_true h.rate.ne']
    rfl
  unfold Loop.scheduleAtRate
  rw [hfrequency]
  exact h.scheduleSendPacket_eq _

/-- The unsigned difference of the counters is the number of packets that are missing. -/
theorem difference_eq {tx rx : ℕ} (hle : rx ≤ tx) (hlt : tx < 2 ^ 64) :
    (tx + (2 ^ 64 - rx % 2 ^ 64)) % 2 ^ 64 = tx - rx := by
  omega

/-- **A check** keeps the rate positive and finds the packets that are missing. -/
theorem Busy.adjust (h : Busy c w) (hlt : w.lastTxCount < 2 ^ 64) (hcheck : CheckHolds c w) :
    Busy c (w.adjust c.threshold c.incrementInterval) := by
  obtain ⟨hle, hrate⟩ := hcheck
  have hincrement := c.incrementInterval_lt
  have hpos := h.rate
  have hrate_lt := h.rate_lt
  have hchecks : ∀ loss : Bool, (loss = true ↔ w.lastRxCount + c.threshold ≤ w.lastTxCount) →
      ∀ k ∈ w.checks ++ [⟨w.lastTxCount, w.lastRxCount, loss⟩],
        k.loss = true ↔ k.received + c.threshold ≤ k.sent := by
    intro loss hloss k hk
    rcases List.mem_append.mp hk with hk | hk
    · exact h.checks k hk
    · rw [List.mem_singleton.mp hk]
      exact hloss
  unfold Loop.adjust
  simp only
  rw [difference_eq hle hlt]
  split
  next hfew =>
    rw [if_pos (by omega)] at hrate
    refine ⟨Nat.pos_of_ne_zero hrate, Nat.mod_lt _ (by decide), hchecks false ?_,
      h.sendPacketEvent, h.checkLossEvent⟩
    simp only [Bool.false_eq_true, false_iff, not_le]
    omega
  next hmany =>
    rw [if_neg (by omega)] at hrate
    have hnew : 0 < (if (w.packetRate + (2 ^ 64 - c.incrementInterval)) % 2 ^ 64 < w.packetRate then
        (w.packetRate + (2 ^ 64 - c.incrementInterval)) % 2 ^ 64 % 2 ^ 32 else w.packetRate) ∧
        (if (w.packetRate + (2 ^ 64 - c.incrementInterval)) % 2 ^ 64 < w.packetRate then
        (w.packetRate + (2 ^ 64 - c.incrementInterval)) % 2 ^ 64 % 2 ^ 32 else w.packetRate) <
          2 ^ 32 := by
      split
      · omega
      · exact ⟨hpos, hrate_lt⟩
    refine ⟨hnew.1, hnew.2, hchecks true ?_, h.sendPacketEvent, h.checkLossEvent⟩
    simp only [true_iff]
    omega

/-- **A check**, and the packet that is sent after it. -/
theorem Busy.checkLoss (h : Busy c w) (hcount : w.lastTxCount = c.interval)
    (hcheck : CheckHolds c w) :
    ∃ u, w.checkLoss c.threshold c.incrementInterval = .ok u ∧ Sound c ended u ∧
      0 < u.packetRate := by
  have hadjust := h.adjust (hcount ▸ c.interval_lt) hcheck
  let u : Loop :=
    { w.adjust c.threshold c.incrementInterval with lastTxCount := 0, lastRxCount := 0 }
  have hu : Busy c u := ⟨hadjust.rate, hadjust.rate_lt, hadjust.checks, hadjust.sendPacketEvent,
    hadjust.checkLossEvent⟩
  unfold Loop.checkLoss
  simp only
  rw [hadjust.scheduleAtRate_eq]
  exact ⟨_, rfl, hu.sending _ fun _ => c.interval_pos, hu.rate⟩

/-- An event begins. -/
theorem Sound.dispatch (h : Sound c ended w) {e : Event} {t : ℕ} (hnext : w.next = some (e, t)) :
    Busy c (w.dispatch e t) ∧ (w.dispatch e t).curTick = t ∧
    (w.dispatch e t).lastTxCount = w.lastTxCount ∧
    match e with
    | .sendPacket => c.checking = true → w.lastTxCount < c.interval
    | .checkLoss => c.checking = true ∧ w.lastTxCount = c.interval := by
  cases hs : w.sendPacketEvent with
  | none =>
    cases hc : w.checkLossEvent with
    | none => simp [Loop.next, hs, hc] at hnext
    | some u =>
      obtain ⟨rfl, rfl⟩ : Event.checkLoss = e ∧ u = t := by
        simpa [Loop.next, hs, hc] using hnext
      exact ⟨⟨h.rate, h.rate_lt, h.checks, hs, rfl⟩, rfl, rfl, h.waiting (by rw [hc]; rfl)⟩
  | some u =>
    have hc : w.checkLossEvent = none := h.single.resolve_left (by rw [hs]; nofun)
    obtain ⟨rfl, rfl⟩ : Event.sendPacket = e ∧ u = t := by
      simpa [Loop.next, hs, hc] using hnext
    exact ⟨⟨h.rate, h.rate_lt, h.checks, rfl, hc⟩, rfl, rfl, h.sending (by rw [hs]; rfl)⟩

/-- A reply comes in between. -/
theorem Sound.processRxPkt (h : Sound c ended w) (delay : ℕ) :
    Sound c ended (w.processRxPkt delay) where
  rate := h.rate
  rate_lt := h.rate_lt
  checks := h.checks
  single := h.single
  active hlt := h.active (Nat.lt_of_le_of_lt (Nat.le_add_right _ _) hlt)
  sending := h.sending
  waiting := h.waiting

theorem sound_startup (c : Control) {packetRate startTick now : ℕ} (hrate : 0 < packetRate)
    (hlt : packetRate < 2 ^ 32) :
    Sound c false (Loop.startup packetRate startTick c.stopTick now) where
  rate := hrate
  rate_lt := hlt
  checks _ h := absurd h List.not_mem_nil
  single := .inr rfl
  active hnow _ := by
    have hle : ¬c.stopTick < now := Nat.not_lt.mpr (Nat.le_of_lt hnow)
    refine .inl ?_
    unfold Loop.startup
    simp only
    rw [if_neg hle]
    split <;> rfl
  sending _ _ := c.interval_pos
  waiting h := nomatch h

/-- What a control loop is for: a loss is declared for `threshold` packets that are missing, and
before `stopTick` one event is scheduled. -/
structure Controlled (c : Control) (ended : Bool) (w : Loop) : Prop where
  loss : ∀ k ∈ w.checks, k.loss = true ↔ k.received + c.threshold ≤ k.sent
  scheduled : w.curTick < c.stopTick → ended = false →
    (w.sendPacketEvent.isSome ^^ w.checkLossEvent.isSome) = true

theorem Sound.controlled (h : Sound c ended w) : Controlled c ended w where
  loss := h.checks
  scheduled hlt hended := by
    have hactive := h.active hlt hended
    rcases h.single with hs | hc
    · rw [hs] at hactive ⊢
      simpa using hactive
    · rw [hc] at hactive ⊢
      simpa using hactive

/-! ## Runs of the generators -/

namespace LoadGenerator

def control (p : LoadGeneratorParams) : Control where
  stopTick := p.stopTick
  interval := checkLossInterval
  threshold := 10
  incrementInterval := p.incrementInterval
  checking := p.mode = .Increment
  interval_pos := by decide
  interval_lt := by decide
  incrementInterval_lt := p.incrementInterval_lt

/-- The checks of a run find what is there. -/
def Meets (p : LoadGeneratorParams) (w : LoadGenerator) : Op → Prop
  | .fire => ∀ t, w.loop.next = some (.checkLoss, t) → CheckHolds (control p) w.loop
  | .processRxPkt _ => True

/-- **A packet is sent.** -/
theorem sendPacket_sound {p : LoadGeneratorParams} {w : LoadGenerator}
    (h : Busy (control p) w.loop)
    (hcount : (control p).checking = true → w.loop.lastTxCount < checkLossInterval) :
    Ends (fun w => Sound (control p) false w.loop) (fun _ => False) (sendPacket p w) := by
  let loop : Loop := { w.loop with lastTxCount := w.loop.lastTxCount + 1 }
  have hloop : Busy (control p) loop :=
    ⟨h.rate, h.rate_lt, h.checks, h.sendPacketEvent, h.checkLossEvent⟩
  unfold sendPacket
  simp only
  split
  next =>
    split
    next hmode =>
      have hchecking : (control p).checking = true := decide_eq_true hmode
      split
      next hinterval =>
        rw [hloop.scheduleCheckLoss_eq]
        exact hloop.waiting _ hchecking hinterval
      next hinterval =>
        rw [hloop.scheduleAtRate_eq]
        refine hloop.sending _ fun _ => ?_
        exact Nat.lt_of_le_of_ne (hcount hchecking) hinterval
    next hmode =>
      have hno : (control p).checking ≠ true := by simp [control, hmode]
      rw [hloop.scheduleAtRate_eq]
      exact hloop.sending _ fun hchecking => absurd hchecking hno
    next hmode =>
      have hno : (control p).checking ≠ true := by simp [control, hmode]
      split
      · rw [hloop.scheduleSendPacket_eq]
        exact hloop.sending _ fun hchecking => absurd hchecking hno
      · rw [hloop.scheduleAtRate_eq]
        exact hloop.sending _ fun hchecking => absurd hchecking hno
  next hstop => exact hloop.stopped (.inl (Nat.le_of_not_lt hstop))

theorem step_sound {p : LoadGeneratorParams} {w : LoadGenerator}
    (h : Sound (control p) false w.loop) (op : Op) (hop : Meets p w op) :
    Ends (fun w => Sound (control p) false w.loop) (fun _ => False) (step p w op) := by
  cases op with
  | processRxPkt delay => exact h.processRxPkt delay
  | fire =>
    unfold step
    simp only
    split
    next t hnext =>
      obtain ⟨hbusy, -, htx, hcount⟩ := h.dispatch hnext
      exact sendPacket_sound hbusy fun hchecking => htx ▸ hcount hchecking
    next t hnext =>
      obtain ⟨hbusy, -, htx, -, hcount⟩ := h.dispatch hnext
      have hcheck : CheckHolds (control p) (w.loop.dispatch .checkLoss t) := hop t hnext
      obtain ⟨u, hu, hsound, -⟩ := hbusy.checkLoss (htx.trans hcount) hcheck
      have hrun : (w.loop.dispatch .checkLoss t).checkLoss 10 p.incrementInterval = .ok u := hu
      unfold checkLoss
      rw [hrun]
      exact hsound
    next => exact h

end LoadGenerator

namespace LoadGeneratorPcap

def control (p : LoadGeneratorPcapParams) : Control where
  stopTick := p.stopTick
  interval := kCheckLossInterval
  threshold := 5
  incrementInterval := p.incrementInterval
  checking := p.replayMode = .ReplayAndAdjustThroughput
  interval_pos := by decide
  interval_lt := by decide
  incrementInterval_lt := p.incrementInterval_lt

/-- The checks of a run find what is there, and no packet of a simple replay is sent before
`stopTick`. -/
def Meets (p : LoadGeneratorPcapParams) (w : LoadGeneratorPcap) : PcapOp → Prop
  | .fire record =>
      (∀ t, w.loop.next = some (.checkLoss, t) → CheckHolds (control p) w.loop) ∧
      ∀ t, w.loop.next = some (.sendPacket, t) → ∀ r, record = some r →
        p.replayMode = .SimpleReplay → t < p.stopTick →
          replay p.toPcapParams p.uninit r = .ok .skipped
  | .processRxPkt _ => True

/-- A fault in the replay of a record. -/
def IsPcap (e : Fault) : Prop := ∃ f, e = .pcap f

/-- **A packet is sent.** -/
theorem packetSent_sound {p : LoadGeneratorPcapParams} {loop : Loop} {ended : Bool}
    (h : Busy (control p) loop)
    (hcount : (control p).checking = true → loop.lastTxCount < kCheckLossInterval)
    (hmode : loop.curTick < p.stopTick → p.replayMode ≠ .SimpleReplay) :
    Ends (Sound (control p) ended) IsPcap (packetSent p loop) := by
  let loop' : Loop := { loop with lastTxCount := loop.lastTxCount + 1 }
  have hloop : Busy (control p) loop' :=
    ⟨h.rate, h.rate_lt, h.checks, h.sendPacketEvent, h.checkLossEvent⟩
  unfold packetSent
  simp only
  split
  next hstop =>
    split
    next hconst =>
      have hno : (control p).checking ≠ true := by simp [control, hconst]
      rw [hloop.scheduleAtRate_eq]
      exact hloop.sending _ fun hchecking => absurd hchecking hno
    next hadjust =>
      have hchecking : (control p).checking = true := decide_eq_true hadjust
      split
      next hinterval =>
        rw [hloop.scheduleCheckLoss_eq]
        exact hloop.waiting _ hchecking hinterval
      next hinterval =>
        rw [hloop.scheduleAtRate_eq]
        refine hloop.sending _ fun _ => ?_
        exact Nat.lt_of_le_of_ne (hcount hchecking) hinterval
    next hsimple => exact absurd hsimple (hmode hstop)
  next hstop => exact hloop.stopped (.inl (Nat.le_of_not_lt hstop))

theorem step_sound {p : LoadGeneratorPcapParams} {w : LoadGeneratorPcap}
    (h : Sound (control p) w.ended w.loop) (op : PcapOp) (hop : Meets p w op) :
    Ends (fun w => Sound (control p) w.ended w.loop) IsPcap (step p w op) := by
  cases op with
  | processRxPkt delay => exact h.processRxPkt delay
  | fire record =>
    unfold step
    simp only
    split
    next t hnext =>
      obtain ⟨hbusy, htick, htx, hcount⟩ := h.dispatch hnext
      unfold sendPacket
      split
      next => exact hbusy.stopped (.inr rfl)
      next r =>
        have hreplay : Ends (fun outcome => replay p.toPcapParams p.uninit r = .ok outcome) IsPcap
            ((replay p.toPcapParams p.uninit r).mapError .pcap) := by
          cases replay p.toPcapParams p.uninit r with
          | ok outcome => exact rfl
          | error e => exact ⟨e, rfl⟩
        refine hreplay.bind fun outcome houtcome => ?_
        have hsound : Ends (Sound (control p) w.ended) IsPcap
            (replayed p (w.loop.dispatch .sendPacket t) outcome) := by
          unfold replayed
          cases outcome with
          | skipped =>
            simp only
            rw [hbusy.scheduleSendPacket_eq]
            exact hbusy.sending _ fun hchecking => htx ▸ hcount hchecking
          | sent txPacket =>
            refine packetSent_sound hbusy (fun hchecking => htx ▸ hcount hchecking)
              fun hlt hmode => ?_
            rw [hop.2 t hnext r rfl hmode (htick ▸ hlt)] at houtcome
            cases houtcome
        exact hsound.bind fun u hu => hu
    next t hnext =>
      obtain ⟨hbusy, -, htx, -, hcount⟩ := h.dispatch hnext
      have hcheck : CheckHolds (control p) (w.loop.dispatch .checkLoss t) := hop.1 t hnext
      obtain ⟨u, hu, hsound, hrate⟩ := hbusy.checkLoss (htx.trans hcount) hcheck
      have hrun : (w.loop.dispatch .checkLoss t).checkLoss 5 p.incrementInterval = .ok u := hu
      have hended : (w.ended || (u.lost && decide (u.packetRate = 0))) = w.ended := by
        rw [decide_eq_false hrate.ne', Bool.and_false, Bool.or_false]
      unfold checkLoss
      rw [hrun]
      show Sound (control p) (w.ended || (u.lost && decide (u.packetRate = 0))) u
      rw [hended]
      exact hsound
    next => exact h

end LoadGeneratorPcap

/-- **The control loop of both generators.**  In every run that starts with a positive rate, whose
checks find no more replies than packets and do not make the rate zero, and that sends no packet of
a simple replay before `stopTick`, the rate is positive whenever it is divided by, a check declares
a loss exactly when the threshold is reached, and before `stopTick` and the end of the trace exactly
one of the two events is scheduled. -/
theorem control_loop {p : LoadGeneratorParams} {q : LoadGeneratorPcapParams} {now : ℕ}
    {ops : List Op} {pcapOps : List PcapOp} (hp : 0 < p.packetRate) (hq : 0 < q.packetRate)
    (hops : Admitted (LoadGenerator.Meets p) (LoadGenerator.step p) (LoadGenerator.startup p now)
      ops)
    (hpcapOps : Admitted (LoadGeneratorPcap.Meets q) (LoadGeneratorPcap.step q)
      (LoadGeneratorPcap.startup q now) pcapOps) :
    Ends (fun w => Controlled (LoadGenerator.control p) false w.loop) (fun _ => False)
      (run (LoadGenerator.step p) (LoadGenerator.startup p now) ops) ∧
    Ends (fun w => Controlled (LoadGeneratorPcap.control q) w.ended w.loop)
      (fun e => ∃ f, e = .pcap f)
      (run (LoadGeneratorPcap.step q) (LoadGeneratorPcap.startup q now) pcapOps) := by
  constructor
  · refine (run_ends (P := fun w => Sound (LoadGenerator.control p) false w.loop)
      (fun w op hw hop => LoadGenerator.step_sound hw op hop) ?_ hops).mono
        fun w hw => hw.controlled
    exact sound_startup (LoadGenerator.control p) hp p.packetRate_lt
  · refine (run_ends (P := fun w => Sound (LoadGeneratorPcap.control q) w.ended w.loop)
      (fun w op hw hop => LoadGeneratorPcap.step_sound hw op hop) ?_ hpcapOps).mono
        fun w hw => hw.controlled
    exact sound_startup (LoadGeneratorPcap.control q) hq q.packetRate_lt

/-- A generator that sends a thousand packets in a second, and changes that by another thousand. -/
def steady : LoadGeneratorParams where
  mode := .Increment
  packetRate := 1000
  incrementInterval := 1000
  startTick := 1
  stopTick := 10 ^ 15
  burstWidth := 1
  burstGap := 1
  packetRate_lt := by decide
  incrementInterval_lt := by decide

/-- The same with a trace. -/
def replaying (mode : ReplayMode) : LoadGeneratorPcapParams where
  loadgenId := 0
  stackMode := .DPDK
  maxPcktSize := 1500
  portFilter := 11211
  replayMode := mode
  packetRate := 1000
  incrementInterval := 1000
  startTick := 1
  stopTick := 10 ^ 15
  uninit _ := 0
  packetRate_lt := by decide
  incrementInterval_lt := by decide

/-- A record of an Ethernet header. -/
def emptyFrame : Record := ⟨14, 14, List.replicate 14 0, rfl, by decide⟩

instance (p : LoadGeneratorPcapParams) (w : LoadGeneratorPcap) :
    ∀ op, Decidable (LoadGeneratorPcap.Meets p w op)
  | .processRxPkt _ => .isTrue trivial
  | .fire record => decidable_of_iff
      ((∀ e ∈ w.loop.next, e.1 = .checkLoss → CheckHolds (LoadGeneratorPcap.control p) w.loop) ∧
        ∀ e ∈ w.loop.next, e.1 = .sendPacket → ∀ r ∈ record, p.replayMode = .SimpleReplay →
          e.2 < p.stopTick → replay p.toPcapParams p.uninit r = .ok .skipped)
      ⟨fun h => ⟨fun t ht => h.1 _ ht rfl, fun t ht => h.2 _ ht rfl⟩,
        fun h => ⟨by rintro ⟨_, t⟩ ht rfl; exact h.1 t ht, by rintro ⟨_, t⟩ ht rfl; exact h.2 t ht⟩⟩

/-- A hundred packets, each of which is answered, and the check. -/
def answered : List PcapOp :=
  (List.replicate 100 [.fire (some emptyFrame), .processRxPkt 5]).flatten ++ [.fire none]

theorem meets_answered :
    Admitted (LoadGeneratorPcap.Meets (replaying .ReplayAndAdjustThroughput))
      (LoadGeneratorPcap.step (replaying .ReplayAndAdjustThroughput))
      (LoadGeneratorPcap.startup (replaying .ReplayAndAdjustThroughput) 0) answered := by
  decide +kernel

theorem control_loop_answered :
    Ends (fun w => Controlled (LoadGenerator.control steady) false w.loop) (fun _ => False)
      (run (LoadGenerator.step steady) (LoadGenerator.startup steady 0) [.fire, .processRxPkt 5]) ∧
    ∃ w, run (LoadGeneratorPcap.step (replaying .ReplayAndAdjustThroughput))
        (LoadGeneratorPcap.startup (replaying .ReplayAndAdjustThroughput) 0) answered = .ok w ∧
      (w.loop.checks = [⟨100, 100, false⟩] ∧ w.loop.packetRate = 2000) ∧
      Controlled (LoadGeneratorPcap.control (replaying .ReplayAndAdjustThroughput)) w.ended
        w.loop := by
  obtain ⟨w, hw, hcheck⟩ : ∃ w, run (LoadGeneratorPcap.step (replaying .ReplayAndAdjustThroughput))
      (LoadGeneratorPcap.startup (replaying .ReplayAndAdjustThroughput) 0) answered = .ok w ∧
      w.loop.checks = [⟨100, 100, false⟩] ∧ w.loop.packetRate = 2000 := by
    decide +kernel
  have hsteady : Admitted (LoadGenerator.Meets steady) (LoadGenerator.step steady)
      (LoadGenerator.startup steady 0) [.fire, .processRxPkt 5] :=
    ⟨fun t ht => (nomatch ht), fun _ _ => ⟨trivial, fun _ _ => trivial⟩⟩
  have hboth := control_loop (by decide) (by decide) hsteady meets_answered
  rw [hw] at hboth
  exact ⟨hboth.1, w, hw, hcheck, hboth.2⟩

/-- The replaying generator at work: `n` packets are sent and `m` came back since the last check. -/
def sending (t n m u : ℕ) : LoadGeneratorPcap :=
  ⟨⟨t, 1000, n, m, some u, none, []⟩, false⟩

theorem replay_emptyFrame (mode : ReplayMode) :
    ∃ v, replay (replaying mode).toPcapParams (replaying mode).uninit emptyFrame =
      .ok (.sent v) := by
  have h : replay (replaying .SimpleReplay).toPcapParams (replaying .SimpleReplay).uninit
      emptyFrame = .ok (.sent [0, 144, 0, 0, 0, 1, 0, 128, 0, 0, 0, 1, 8, 0]) := by
    decide +kernel
  exact ⟨_, h⟩

/-- What a packet schedules. -/
theorem fire_emptyFrame {mode : ReplayMode} {w : LoadGeneratorPcap} {t : ℕ} {loop : Loop}
    (hnext : w.loop.next = some (.sendPacket, t))
    (hpacket : LoadGeneratorPcap.packetSent (replaying mode) (w.loop.dispatch .sendPacket t) =
      .ok loop) :
    LoadGeneratorPcap.step (replaying mode) w (.fire (some emptyFrame)) = .ok { w with loop } := by
  obtain ⟨v, hv⟩ := replay_emptyFrame mode
  unfold LoadGeneratorPcap.step
  simp only
  rw [hnext]
  unfold LoadGeneratorPcap.sendPacket
  simp only
  rw [hv]
  show (LoadGeneratorPcap.packetSent _ _ >>= _) = _
  rw [hpacket]
  rfl

theorem busy_sending (t n m : ℕ) :
    Busy (LoadGeneratorPcap.control (replaying .ReplayAndAdjustThroughput))
      ⟨t, 1000, n, m, none, none, []⟩ :=
  ⟨show 0 < 1000 by decide, show 1000 < 2 ^ 32 by decide, fun _ h => absurd h List.not_mem_nil, rfl,
    rfl⟩

/-- A packet that does not reach the check is followed by another. -/
theorem fire_sending {t n m u : ℕ} (hn : n + 1 < 100) (hu : u < 10 ^ 15) :
    LoadGeneratorPcap.step (replaying .ReplayAndAdjustThroughput) (sending t n m u)
      (.fire (some emptyFrame)) = .ok (sending u (n + 1) m (u + 10 ^ 9)) := by
  have hpacket : LoadGeneratorPcap.packetSent (replaying .ReplayAndAdjustThroughput)
      ⟨u, 1000, n, m, none, none, []⟩ =
        .ok ⟨u, 1000, n + 1, m, some (u + 10 ^ 9), none, []⟩ := by
    rw [show u + 10 ^ 9 = u + 10 ^ 12 / 1000 + 0 by norm_num]
    refine (if_pos hu).trans ?_
    refine (if_neg (Nat.ne_of_lt hn)).trans ?_
    exact (busy_sending u (n + 1) m).scheduleAtRate_eq 0
  exact fire_emptyFrame rfl hpacket

/-- The packet that reaches the check schedules it. -/
theorem fire_last {t m u : ℕ} (hu : u < 10 ^ 15) :
    LoadGeneratorPcap.step (replaying .ReplayAndAdjustThroughput) (sending t 99 m u)
      (.fire (some emptyFrame)) =
        .ok ⟨⟨u, 1000, 100, m, none, some (u + 10 ^ 8), []⟩, false⟩ := by
  have hpacket : LoadGeneratorPcap.packetSent (replaying .ReplayAndAdjustThroughput)
      ⟨u, 1000, 99, m, none, none, []⟩ =
        .ok ⟨u, 1000, 100, m, none, some (u + 10 ^ 8), []⟩ := by
    refine (if_pos hu).trans ?_
    exact (busy_sending u 100 m).scheduleCheckLoss_eq _
  exact fire_emptyFrame rfl hpacket

theorem run_sending {m : ℕ} : ∀ (k : ℕ) {t n u : ℕ}, n + k < 100 → u + k * 10 ^ 9 < 10 ^ 15 →
    ∃ t', run (LoadGeneratorPcap.step (replaying .ReplayAndAdjustThroughput)) (sending t n m u)
      (List.replicate k (.fire (some emptyFrame))) = .ok (sending t' (n + k) m (u + k * 10 ^ 9))
  | 0, t, n, u, _, _ => ⟨t, by rw [Nat.zero_mul]; rfl⟩
  | k + 1, t, n, u, hn, hu => by
      obtain ⟨t', hrun⟩ := run_sending (m := m) k (t := u) (n := n + 1) (u := u + 10 ^ 9)
        (by omega) (by omega)
      refine ⟨t', ?_⟩
      rw [List.replicate_succ, run, fire_sending (by omega) (by omega)]
      refine hrun.trans ?_
      rw [show n + 1 + k = n + (k + 1) by omega,
        show u + 10 ^ 9 + k * 10 ^ 9 = u + (k + 1) * 10 ^ 9 by omega]

theorem run_replies {t n u : ℕ} : ∀ (k m : ℕ),
    run (LoadGeneratorPcap.step (replaying .ReplayAndAdjustThroughput)) (sending t n m u)
      (List.replicate k (.processRxPkt 0)) = .ok (sending t n (m + k) u)
  | 0, _ => rfl
  | k + 1, m => by
      have hreply : LoadGeneratorPcap.step (replaying .ReplayAndAdjustThroughput)
          (sending t n m u) (.processRxPkt 0) = .ok (sending t n (m + 1) u) := rfl
      rw [List.replicate_succ, run_cons_ok _ hreply, run_replies k (m + 1),
        show m + 1 + k = m + (k + 1) by omega]

/-- A hundred packets, after `m` replies, end with the check. -/
theorem run_hundred (m : ℕ) :
    ∃ t, run (LoadGeneratorPcap.step (replaying .ReplayAndAdjustThroughput))
      (LoadGeneratorPcap.startup (replaying .ReplayAndAdjustThroughput) 0)
      (List.replicate m (.processRxPkt 0) ++ List.replicate 100 (.fire (some emptyFrame))) =
        .ok ⟨⟨t, 1000, 100, m, none, some (t + 10 ^ 8), []⟩, false⟩ := by
  have hreplies := run_replies (t := 0) (n := 0) (u := 2) m 0
  obtain ⟨t, hrun⟩ := run_sending (m := 0 + m) 99 (t := 0) (n := 0) (u := 2) (by decide) (by decide)
  refine ⟨2 + 99 * 10 ^ 9, ?_⟩
  refine (run_append_ok _ hreplies).trans ?_
  rw [List.replicate_succ' (n := 99)]
  refine (run_append_ok _ hrun).trans ?_
  rw [Nat.zero_add, Nat.zero_add, run_cons_ok [] (fire_last (by decide))]
  rfl

/-- A check that no packet came back for makes the rate zero. -/
theorem fire_check (t u : ℕ) :
    LoadGeneratorPcap.step (replaying .ReplayAndAdjustThroughput)
      ⟨⟨t, 1000, 100, 0, none, some u, []⟩, false⟩ (.fire none) = .error .zeroRate := by
  have hrate : (Loop.adjust 5 1000
      ⟨u, 1000, 100, 0, none, none, []⟩).packetRate = 0 := by
    unfold Loop.adjust
    simp only
    rw [if_neg (by norm_num), if_pos (by norm_num)]
    exact show (1000 + (2 ^ 64 - 1000)) % 2 ^ 64 % 2 ^ 32 = 0 by norm_num
  have hfrequency : Loop.frequency (Loop.adjust 5 1000
      ⟨u, 1000, 100, 0, none, none, []⟩) = .error .zeroRate := by
    unfold Loop.frequency
    rw [hrate]
    rfl
  have hcheck : Loop.checkLoss 5 1000 ⟨u, 1000, 100, 0, none, none, []⟩ =
      .error .zeroRate := by
    unfold Loop.checkLoss Loop.scheduleAtRate
    simp only
    rw [hfrequency]
    rfl
  show LoadGeneratorPcap.checkLoss (replaying .ReplayAndAdjustThroughput)
    ⟨⟨u, 1000, 100, 0, none, none, []⟩, false⟩ = _
  unfold LoadGeneratorPcap.checkLoss
  exact congrArg (· >>= _) hcheck

/-- A check that one packet too many came back for declares a loss. -/
theorem late_check (t u : ℕ) :
    (Loop.adjust 5 1000 ⟨t, 1000, 100, 101, none, some u, []⟩).checks = [⟨100, 101, true⟩] := by
  unfold Loop.adjust
  simp only
  rw [if_neg (by norm_num)]
  rfl

/-- **Three runs that lose control**: a loss makes the rate zero, a late reply makes a check declare
a loss, and a simple replay schedules nothing after its first packet. -/
theorem control_loop_stops :
    run (LoadGeneratorPcap.step (replaying .ReplayAndAdjustThroughput))
        (LoadGeneratorPcap.startup (replaying .ReplayAndAdjustThroughput) 0)
        (List.replicate 100 (.fire (some emptyFrame)) ++ [.fire none]) = .error .zeroRate ∧
    (∃ w, run (LoadGeneratorPcap.step (replaying .ReplayAndAdjustThroughput))
        (LoadGeneratorPcap.startup (replaying .ReplayAndAdjustThroughput) 0)
        (List.replicate 101 (.processRxPkt 0) ++ List.replicate 100 (.fire (some emptyFrame))) =
          .ok w ∧ (w.loop.adjust 5 1000).checks = [⟨100, 101, true⟩]) ∧
    ∃ w, run (LoadGeneratorPcap.step (replaying .SimpleReplay))
        (LoadGeneratorPcap.startup (replaying .SimpleReplay) 0) [.fire (some emptyFrame)] = .ok w ∧
      w.loop.curTick < 10 ^ 15 ∧ w.loop.next = none := by
  obtain ⟨t, hnone⟩ := run_hundred 0
  obtain ⟨u, hlate⟩ := run_hundred 101
  rw [List.replicate_zero, List.nil_append] at hnone
  refine ⟨?_, ⟨_, hlate, late_check u _⟩, ?_⟩
  · rw [run_append_ok _ hnone]
    exact run_cons_error [] (fire_check t _)
  · decide +kernel

end Gem5.LoadGen
