/-
# Delivery of packets

A packet queue never loses a wake-up: whenever it holds packets it waits for a retry, or
its send event is scheduled for the first of them.  From this follow the assertions of
`sendDeferredPacket`, that no packet leaves before its tick, and that a queue whose port
accepts what it is offered sends everything.

Packets keep their order inside one *class*: the packets with the same tick when the
queue sorts by tick, the packets to the same address when it keeps the order of
addresses.

Ticks below `MaxTick` are needed: a packet for `MaxTick` gets no event, and at `MaxTick`
the next tick wraps around.
-/
import Gem5.PacketQueue

open Runs

namespace Gem5.Mem

variable {p : QueueParams}

/-! ## The order of the list -/

/-- Packets that are sent in the order they were enqueued. -/
def sameClass (p : QueueParams) (d d' : DeferredPacket) : Bool :=
  if p.forceOrder then d.pkt.matchAddr d'.pkt else d.tick = d'.tick

theorem Packet.matchAddr_iff {x y : Packet} :
    x.matchAddr y = true ↔ x.addr = y.addr ∧ x.isSecure = y.isSecure := by
  unfold Packet.matchAddr
  rw [Bool.and_eq_true, decide_eq_true_iff, decide_eq_true_iff]

variable {d new : DeferredPacket} {enqueued done : List DeferredPacket} {q : PacketQueue}
  {s : QueueRun}

/-- Two members of a class are of one class. -/
theorem sameClass_of {x y : DeferredPacket} (hx : sameClass p d x = true)
    (hy : sameClass p d y = true) : sameClass p x y = true := by
  unfold sameClass at *
  split at hx
  · rename_i hforce
    rw [if_pos hforce] at hy ⊢
    rw [Packet.matchAddr_iff] at *
    exact ⟨hx.1.symm.trans hy.1, hx.2.symm.trans hy.2⟩
  · rename_i hforce
    rw [if_neg hforce] at hy ⊢
    rw [decide_eq_true_iff] at *
    omega

/-- The search stops at packets of the class of the new one. -/
theorem stopsAt_of_sameClass (h : sameClass p d new = true) :
    PacketQueue.stopsAt p new.pkt new.tick d = true := by
  unfold sameClass at h
  unfold PacketQueue.stopsAt
  split at h
  · rename_i hforce
    rw [hforce, h]
    rfl
  · rw [decide_eq_true_iff] at h
    rw [decide_eq_true (Nat.le_of_eq h), Bool.or_true]

/-- The packets that were handed over and the packets in the list, against the order in
which they were enqueued. -/
structure History (p : QueueParams) (now : ℕ) (enqueued done list : List DeferredPacket) :
    Prop where
  fifo : ∀ d, (done ++ list).filter (sameClass p d) = enqueued.filter (sameClass p d)
  perm : (done ++ list).Perm enqueued
  sorted : p.forceOrder = false → (done ++ list).Pairwise fun d d' => d.tick ≤ d'.tick
  past : ∀ d ∈ done, d.tick ≤ now

/-- A new packet goes behind those the search stops at. -/
theorem History.insert {now : ℕ} (before : List DeferredPacket) {behind : List DeferredPacket}
    (h : History p now enqueued done (before ++ behind)) (hnow : now ≤ new.tick)
    (hbehind : ∀ d ∈ behind, PacketQueue.stopsAt p new.pkt new.tick d = false)
    (hbefore : ∀ d ∈ before.getLast?, PacketQueue.stopsAt p new.pkt new.tick d = true) :
    History p now (enqueued ++ [new]) done (before ++ new :: behind) := by
  have hassoc : ∀ l, done ++ (before ++ l) = (done ++ before) ++ l := fun l =>
    (List.append_assoc done before l).symm
  refine ⟨?_, ?_, ?_, h.past⟩
  · intro d
    have hold := h.fifo d
    rw [hassoc, List.filter_append] at hold
    rw [hassoc, List.filter_append]
    rw [List.filter_append enqueued, ← hold]
    cases hnew : sameClass p d new with
    | false => rw [List.filter_cons_of_neg (by simp [hnew]), List.filter_cons_of_neg (by simp [hnew]),
        List.filter_nil, List.append_nil]
    | true =>
      -- no packet of the class is behind the new one
      have hnone : behind.filter (sameClass p d) = [] := by
        rw [List.filter_eq_nil_iff]
        intro x hx hcon
        have hstop := stopsAt_of_sameClass (sameClass_of hcon hnew)
        rw [hbehind x hx] at hstop
        cases hstop
      rw [List.filter_cons_of_pos hnew, hnone, List.filter_cons_of_pos hnew, List.filter_nil,
        List.append_nil]
  · have hperm := h.perm
    rw [hassoc] at hperm ⊢
    exact (List.perm_middle.trans (hperm.cons new)).trans
      (List.perm_append_singleton new enqueued).symm
  · intro hforce
    have hsorted := h.sorted hforce
    have hstop : ∀ d, PacketQueue.stopsAt p new.pkt new.tick d = decide (d.tick ≤ new.tick) := by
      intro d
      unfold PacketQueue.stopsAt
      rw [hforce]
      rfl
    rw [hassoc] at hsorted ⊢
    obtain ⟨hpre, hsuf, hcross⟩ := List.pairwise_append.mp hsorted
    obtain ⟨-, hin, -⟩ := List.pairwise_append.mp hpre
    refine List.pairwise_append.mpr ⟨hpre, List.pairwise_cons.mpr ⟨?_, hsuf⟩, ?_⟩
    · intro d hd
      have hd' := hbehind d hd
      rw [hstop, decide_eq_false_iff_not] at hd'
      omega
    · intro d hd d' hd'
      rcases List.mem_cons.mp hd' with rfl | hd'
      · rcases List.mem_append.mp hd with hd | hd
        · exact (h.past d hd).trans hnow
        · -- up to the last packet before the new one
          have hne : before ≠ [] := List.ne_nil_of_mem hd
          have hlast := hbefore (before.getLast hne) (List.getLast?_eq_some_getLast hne)
          rw [hstop, decide_eq_true_iff] at hlast
          refine le_trans ?_ hlast
          rw [← List.dropLast_append_getLast hne] at hin hd
          rcases List.mem_append.mp hd with hd | hd
          · exact (List.pairwise_append.mp hin).2.2 d hd _ (by simp)
          · obtain rfl := List.mem_singleton.mp hd
            exact le_refl _
      · exact hcross d hd d' hd'

/-- The front packet is handed over. -/
theorem History.send {now : ℕ} {list : List DeferredPacket}
    (h : History p now enqueued done (d :: list)) (hready : d.tick ≤ now) :
    History p now enqueued (done ++ [d]) list := by
  have hassoc : done ++ d :: list = (done ++ [d]) ++ list := by
    rw [List.append_assoc]
    rfl
  obtain ⟨hfifo, hperm, hsorted, hpast⟩ := h
  rw [hassoc] at hperm hsorted
  refine ⟨fun x => by rw [← hassoc]; exact hfifo x, hperm, hsorted, ?_⟩
  intro x hx
  rcases List.mem_append.mp hx with hx | hx
  · exact hpast x hx
  · obtain rfl := List.mem_singleton.mp hx
    exact hready

theorem History.later {now now' : ℕ} {list : List DeferredPacket}
    (h : History p now enqueued done list) (hle : now ≤ now') :
    History p now' enqueued done list :=
  ⟨h.fifo, h.perm, h.sorted, fun d hd => (h.past d hd).trans hle⟩

/-! ## The send event -/

/-- The send event is for the front packet, and a refused packet is ready.  Between two
calls and inside a successful send alike. -/
structure Timed (q : PacketQueue) : Prop where
  running : q.curTick < maxTick
  ticks : ∀ d ∈ q.transmitList, d.tick ≠ maxTick
  event : ∀ e, q.sendEvent = some e → q.waitingOnRetry = false ∧ q.curTick ≤ e ∧
    ∃ d, q.transmitList.head? = some d ∧ d.tick ≤ e ∧ e ≤ max d.tick (q.curTick + 1)
  refused : q.waitingOnRetry = true → ∃ d, q.transmitList.head? = some d ∧ d.tick ≤ q.curTick

/-- No wake-up is lost. -/
def Awake (q : PacketQueue) : Prop :=
  q.transmitList ≠ [] → q.waitingOnRetry = true ∨ q.sendEvent ≠ none

theorem schedSendEvent_eq {tick : ℕ} (hwait : q.waitingOnRetry = false) (htick : tick ≠ maxTick)
    (hwrap : (q.curTick + 1) % 2 ^ 64 = q.curTick + 1) :
    q.schedSendEvent tick = match q.sendEvent with
      | none => q.schedule (max tick (q.curTick + 1))
      | some e =>
        if max tick (q.curTick + 1) < e then q.schedule (max tick (q.curTick + 1)) else .ok q := by
  have hgoes : ¬q.waitingOnRetry = true := by simp [hwait]
  unfold PacketQueue.schedSendEvent
  rw [hwrap]
  exact (if_neg hgoes).trans (if_pos htick)

/-- Scheduling for the front packet `d` of a queue that does not wait. -/
theorem schedSendEvent_spec (hrun : q.curTick < maxTick)
    (hticks : ∀ x ∈ q.transmitList, x.tick ≠ maxTick) (hd : q.transmitList.head? = some d)
    (hwait : q.waitingOnRetry = false)
    (hevent : ∀ e, q.sendEvent = some e → q.curTick ≤ e ∧ d.tick ≤ e) :
    ∃ e, q.schedSendEvent d.tick = .ok { q with sendEvent := some e } ∧
      Timed { q with sendEvent := some e } := by
  have hd' : d ∈ q.transmitList := List.mem_of_mem_head? hd
  have hwrap : (q.curTick + 1) % 2 ^ 64 = q.curTick + 1 := by
    unfold maxTick at hrun
    omega
  have htimed : ∀ e, q.curTick ≤ e → d.tick ≤ e → e ≤ max d.tick (q.curTick + 1) →
      Timed { q with sendEvent := some e } := by
    intro e hcur hle hmax
    refine ⟨hrun, hticks, ?_, ?_⟩
    · intro e' he'
      obtain rfl := Option.some.inj he'
      exact ⟨hwait, hcur, d, hd, hle, hmax⟩
    · intro hcon
      rw [hwait] at hcon
      cases hcon
  have hsched : q.schedule (max d.tick (q.curTick + 1)) =
      .ok { q with sendEvent := some (max d.tick (q.curTick + 1)) } := by
    unfold PacketQueue.schedule
    rw [require_ok (decide_eq_true (by omega))]
    rfl
  rw [schedSendEvent_eq hwait (hticks d hd') hwrap]
  cases he : q.sendEvent with
  | none => exact ⟨_, hsched, htimed _ (by omega) (by omega) (by omega)⟩
  | some e =>
    obtain ⟨hcur, hle⟩ := hevent e he
    dsimp only
    split
    · exact ⟨_, hsched, htimed _ (by omega) (by omega) (by omega)⟩
    · refine ⟨e, ?_, htimed e hcur hle (by omega)⟩
      rw [← he]

/-! ## Enqueueing -/

/-- **`schedSendTiming`** puts the packet in its place and keeps the queue awake.  The
only thing that can go wrong is the limit on the length. -/
theorem schedSendTiming_spec (hq : Timed q) (hnow : q.curTick ≤ new.tick)
    (hsnoop : new.pkt.isExpressSnoop = false) (hmax : new.tick ≠ maxTick) :
    Ends (fun q' => Timed q' ∧ (Awake q → Awake q') ∧ q'.curTick = q.curTick ∧
        q'.waitingOnRetry = q.waitingOnRetry ∧
        ∀ enqueued done, History p q.curTick enqueued done q.transmitList →
          History p q.curTick (enqueued ++ [new]) done q'.transmitList)
      (fun e => e = .grownBeyondLimit ∧ p.disableSanityCheck = false)
      (q.schedSendTiming p new.pkt new.tick) := by
  set stop : DeferredPacket → Bool := fun d => !PacketQueue.stopsAt p new.pkt new.tick d with hstop
  unfold PacketQueue.schedSendTiming
  rw [require_ok (decide_eq_true hnow), hsnoop]
  show Ends _ _ (require _ _ >>= _)
  cases hlimit : p.disableSanityCheck || decide (q.transmitList.length ≤ 128) with
  | false => exact ⟨rfl, (Bool.or_eq_false_iff.mp hlimit).1⟩
  | true =>
    refine Ends.bind (P := fun _ => True) trivial fun _ _ => ?_
    dsimp only
    rw [← hstop]
    have hparts : q.transmitList.rdropWhile stop ++ q.transmitList.rtakeWhile stop =
        q.transmitList := List.rdropWhile_append_rtakeWhile
    have hbehind : ∀ d ∈ q.transmitList.rtakeWhile stop,
        PacketQueue.stopsAt p new.pkt new.tick d = false := by
      intro d hd
      have hd' := List.mem_rtakeWhile_imp hd
      rw [hstop, Bool.not_eq_true'] at hd'
      exact hd'
    have hnew : new = ⟨new.tick, new.pkt⟩ := rfl
    split
    · -- in front of all packets
      rename_i hnil
      have hall : ∀ d ∈ q.transmitList, PacketQueue.stopsAt p new.pkt new.tick d = false := by
        intro d hd
        rw [← hparts, hnil] at hd
        exact hbehind d hd
      have hlate : ∀ d ∈ q.transmitList, new.tick < d.tick := by
        intro d hd
        have hno := (Bool.or_eq_false_iff.mp (hall d hd)).2
        rw [decide_eq_false_iff_not] at hno
        omega
      have hwait : q.waitingOnRetry = false := by
        by_contra hcon
        obtain ⟨d, hd, hready⟩ := hq.refused (by simpa using hcon)
        have hlt := hlate d (List.mem_of_mem_head? hd)
        omega
      obtain ⟨e, hsched, htimed⟩ := schedSendEvent_spec
        (q := { q with transmitList := new :: q.transmitList }) (d := new) hq.running
        (by
          intro x hx
          rcases List.mem_cons.mp hx with rfl | hx
          · exact hmax
          · exact hq.ticks x hx)
        rfl hwait
        (by
          intro e he
          obtain ⟨-, hcur, d, hd, hle, -⟩ := hq.event e he
          have hlt := hlate d (List.mem_of_mem_head? hd)
          exact ⟨hcur, by omega⟩)
      show Ends _ _ (PacketQueue.schedSendEvent { q with transmitList := new :: q.transmitList } _)
      rw [hsched]
      refine ⟨htimed, fun _ _ => .inr (Option.some_ne_none e), rfl, rfl, ?_⟩
      intro enqueued done hhist
      exact History.insert [] hhist hnow hall (by simp)
    · -- behind the last packet the search stops at
      rename_i hne
      set before := q.transmitList.rdropWhile stop with hbefore
      have hne' : before ≠ [] := fun hnil => hne hnil
      have hlast : ∀ d ∈ before.getLast?, PacketQueue.stopsAt p new.pkt new.tick d = true := by
        intro d hd
        rw [List.getLast?_eq_some_getLast hne'] at hd
        obtain rfl := Option.some.inj hd
        have hnot := List.rdropWhile_last_not stop q.transmitList hne'
        simpa [hstop] using hnot
      have hhead : (before ++ new :: q.transmitList.rtakeWhile stop).head? =
          q.transmitList.head? := by
        conv_rhs => rw [← hparts]
        rw [List.head?_append_of_ne_nil _ hne', List.head?_append_of_ne_nil _ hne']
      refine ⟨⟨hq.running, ?_, ?_, ?_⟩, ?_, rfl, rfl, ?_⟩
      · intro d hd
        rcases List.mem_append.mp hd with hd | hd
        · exact hq.ticks d (hparts ▸ List.mem_append_left _ hd)
        · rcases List.mem_cons.mp hd with rfl | hd
          · exact hmax
          · exact hq.ticks d (hparts ▸ List.mem_append_right _ hd)
      · intro e he
        obtain ⟨hwait, hcur, d, hd, hle⟩ := hq.event e he
        exact ⟨hwait, hcur, d, hhead.trans hd, hle⟩
      · intro hwait
        obtain ⟨d, hd, hready⟩ := hq.refused hwait
        exact ⟨d, hhead.trans hd, hready⟩
      · intro hawake _
        refine hawake ?_
        intro hnil
        rw [hnil] at hparts
        exact hne' (List.append_eq_nil_iff.mp hparts).1
      · intro enqueued done hhist
        rw [← hparts] at hhist
        exact History.insert before hhist hnow hbehind hlast

/-- A packet that may be enqueued now, with ticks below `bound`. -/
def Enqueueable (bound now : ℕ) (d : DeferredPacket) : Prop :=
  now ≤ d.tick ∧ d.tick < bound ∧ d.pkt.isExpressSnoop = false

instance (bound now : ℕ) (d : DeferredPacket) : Decidable (Enqueueable bound now d) :=
  inferInstanceAs (Decidable (_ ∧ _ ∧ _))

/-- The calls from inside a send. -/
theorem schedAll_spec (hq : Timed q) {ds : List DeferredPacket}
    (hds : ∀ d ∈ ds, Enqueueable maxTick q.curTick d) :
    Ends (fun q' => Timed q' ∧ q'.curTick = q.curTick ∧ q'.waitingOnRetry = q.waitingOnRetry ∧
        ∀ enqueued done, History p q.curTick enqueued done q.transmitList →
          History p q.curTick (enqueued ++ ds) done q'.transmitList)
      (fun e => e = .grownBeyondLimit ∧ p.disableSanityCheck = false) (q.schedAll p ds) := by
  induction ds generalizing q with
  | nil =>
    refine ⟨hq, rfl, rfl, ?_⟩
    intro enqueued done hhist
    rw [List.append_nil]
    exact hhist
  | cons d ds ih =>
    obtain ⟨hnow, hmax, hsnoop⟩ := hds d List.mem_cons_self
    refine (schedSendTiming_spec hq hnow hsnoop hmax.ne).bind ?_
    rintro q₁ ⟨hq₁, -, hcur₁, hwait₁, hhist₁⟩
    have hrest : ∀ x ∈ ds, Enqueueable maxTick q₁.curTick x := by
      intro x hx
      rw [hcur₁]
      exact hds x (List.mem_cons_of_mem d hx)
    refine (ih hq₁ hrest).mono ?_
    rintro q₂ ⟨hq₂, hcur₂, hwait₂, hhist₂⟩
    refine ⟨hq₂, hcur₂.trans hcur₁, hwait₂.trans hwait₁, ?_⟩
    intro enqueued done hhist
    rw [hcur₁] at hhist₂
    have hboth := hhist₂ _ _ (hhist₁ enqueued done hhist)
    rw [List.append_assoc] at hboth
    exact hboth

/-! ## Sending -/

/-- A reply of the port: nothing is enqueued from inside a refused send. -/
def Sound (bound now : ℕ) (reply : PacketQueue.Reply) : Prop :=
  (reply.accepted = false → reply.enqueued = []) ∧
    ∀ d ∈ reply.enqueued, Enqueueable bound now d

instance (bound now : ℕ) (reply : PacketQueue.Reply) : Decidable (Sound bound now reply) :=
  inferInstanceAs (Decidable (_ ∧ _))

/-- **`sendDeferredPacket`** of a queue whose front packet is ready. -/
theorem sendDeferredPacket_spec (hrun : q.curTick < maxTick)
    (hticks : ∀ d ∈ q.transmitList, d.tick ≠ maxTick) (hwait : q.waitingOnRetry = false)
    (hevent : q.sendEvent = none) (hd : q.transmitList.head? = some d) (hready : d.tick ≤ q.curTick)
    {reply : PacketQueue.Reply} (hreply : Sound maxTick q.curTick reply) :
    Ends (fun q' => Timed q' ∧ Awake q' ∧ q'.curTick = q.curTick ∧
        ∀ enqueued done, History p q.curTick enqueued done q.transmitList →
          History p q.curTick (enqueued ++ reply.enqueued)
            (done ++ if reply.accepted then [d] else []) q'.transmitList)
      (fun e => e = .grownBeyondLimit ∧ p.disableSanityCheck = false)
      (q.sendDeferredPacket p reply) := by
  obtain ⟨rest, hlist⟩ := List.head?_eq_some_iff.mp hd
  obtain ⟨list, waiting, event, now⟩ := q
  dsimp only at hrun hticks hwait hevent hlist hready hreply ⊢
  subst hwait hevent hlist
  have hq : Timed ⟨rest, false, none, now⟩ :=
    ⟨hrun, fun x hx => hticks x (List.mem_cons_of_mem d hx), nofun, nofun⟩
  show Ends _ _ (require _ (decide (d.tick ≤ now)) >>= _)
  rw [require_ok (decide_eq_true hready)]
  obtain ⟨new, accepted⟩ := reply
  cases accepted with
  | false =>
    -- the packet goes back to the front
    obtain rfl := hreply.1 rfl
    refine ⟨⟨hrun, hticks, nofun, ?_⟩, ?_, rfl, ?_⟩
    · intro _
      exact ⟨d, rfl, hready⟩
    · intro _
      exact .inl rfl
    · intro enqueued done hhist
      show History p now (enqueued ++ []) (done ++ []) (d :: rest)
      rw [List.append_nil, List.append_nil]
      exact hhist
  | true =>
    refine (schedAll_spec hq hreply.2).bind ?_
    rintro ⟨list₁, waiting₁, event₁, now₁⟩ ⟨hq₁, hcur₁, hwait₁, hhist₁⟩
    dsimp only at hcur₁ hwait₁ hhist₁
    subst hcur₁ hwait₁
    have hhist : ∀ enqueued done, History p now₁ enqueued done (d :: rest) →
        History p now₁ (enqueued ++ new) (done ++ [d]) list₁ :=
      fun enqueued done hhist => hhist₁ _ _ (hhist.send hready)
    show Ends _ _ (PacketQueue.schedSendEvent ⟨list₁, false, event₁, now₁⟩
      (PacketQueue.deferredPacketReadyTime ⟨list₁, false, event₁, now₁⟩))
    cases list₁ with
    | nil => exact ⟨hq₁, fun hcon => absurd rfl hcon, rfl, hhist⟩
    | cons d₁ rest₁ =>
      obtain ⟨e, hsched, htimed⟩ := schedSendEvent_spec (d := d₁) hq₁.running hq₁.ticks rfl rfl
        (by
          intro e he
          obtain ⟨-, hcur, x, hx, hle, -⟩ := hq₁.event e he
          obtain rfl := Option.some.inj hx
          exact ⟨hcur, hle⟩)
      show Ends _ _ (PacketQueue.schedSendEvent ⟨d₁ :: rest₁, false, event₁, now₁⟩ d₁.tick)
      rw [hsched]
      exact ⟨htimed, fun _ => .inr nofun, rfl, hhist⟩

/-! ## Runs -/

/-- What may happen to a queue while all ticks are below `bound`: time does not go back and
passes no scheduled event, the event is processed at its tick, and a retry comes only to a
queue that waits for one. -/
def Allowed (bound : ℕ) (s : QueueRun) : QueueAction → Prop
  | .advance t =>
      s.queue.curTick ≤ t ∧ t < bound ∧ ∀ e, s.queue.sendEvent = some e → t ≤ e
  | .schedSendTiming pkt when_ => Enqueueable bound s.queue.curTick ⟨when_, pkt⟩
  | .processSendEvent reply =>
      s.queue.sendEvent = some s.queue.curTick ∧ Sound bound s.queue.curTick reply
  | .retry reply => s.queue.waitingOnRetry = true ∧ Sound bound s.queue.curTick reply

instance (bound : ℕ) (s : QueueRun) : (a : QueueAction) → Decidable (Allowed bound s a)
  | .advance t =>
      have : Decidable (∀ e, s.queue.sendEvent = some e → t ≤ e) :=
        decidable_of_iff (∀ e ∈ s.queue.sendEvent, t ≤ e) Iff.rfl
      inferInstanceAs (Decidable (_ ∧ _ ∧ _))
  | .schedSendTiming pkt when_ =>
      inferInstanceAs (Decidable (Enqueueable bound s.queue.curTick ⟨when_, pkt⟩))
  | .processSendEvent _ => inferInstanceAs (Decidable (_ ∧ Sound _ _ _))
  | .retry _ => inferInstanceAs (Decidable (_ ∧ Sound _ _ _))

/-- The invariant of a queue with its history. -/
structure Delivering (p : QueueParams) (s : QueueRun) : Prop where
  timed : Timed s.queue
  awake : Awake s.queue
  history : History p s.queue.curTick s.enqueued (s.sent.map Prod.fst) s.queue.transmitList
  notEarly : ∀ x ∈ s.sent, x.1.tick ≤ x.2

/-- A call of `sendDeferredPacket` on a ready front packet. -/
theorem Delivering.send (hs : Delivering p s) (hlist : q.transmitList = s.queue.transmitList)
    (hcur : q.curTick = s.queue.curTick) (hwait : q.waitingOnRetry = false)
    (hevent : q.sendEvent = none) (hd : s.queue.transmitList.head? = some d)
    (hready : d.tick ≤ s.queue.curTick) {reply : PacketQueue.Reply}
    (hreply : Sound maxTick s.queue.curTick reply) :
    Ends (Delivering p) (fun e => e = .grownBeyondLimit ∧ p.disableSanityCheck = false)
      (do
        let queue ← q.sendDeferredPacket p reply
        return ⟨queue, s.enqueued ++ reply.enqueued, s.sent ++ QueueRun.sentBy s.queue reply⟩) := by
  have hsent : QueueRun.sentBy s.queue reply =
      if reply.accepted then [(d, s.queue.curTick)] else [] := by
    unfold QueueRun.sentBy
    rw [hd]
    rfl
  have hmap : (QueueRun.sentBy s.queue reply).map Prod.fst =
      if reply.accepted then [d] else [] := by
    rw [hsent]
    split <;> rfl
  rw [← hcur] at hready hreply
  rw [← hlist] at hd
  have hrun : q.curTick < maxTick := hcur ▸ hs.timed.running
  have hticks : ∀ x ∈ q.transmitList, x.tick ≠ maxTick := hlist ▸ hs.timed.ticks
  refine (sendDeferredPacket_spec hrun hticks hwait hevent hd hready hreply).bind ?_
  rintro q' ⟨htimed, hawake, hcur', hhist⟩
  refine ⟨htimed, hawake, ?_, ?_⟩
  · have hnew := hhist s.enqueued (s.sent.map Prod.fst)
      (by rw [hcur, hlist]; exact hs.history)
    show History p q'.curTick _ (List.map Prod.fst (s.sent ++ _)) _
    rw [List.map_append, hmap, hcur']
    exact hnew
  · intro x hx
    rcases List.mem_append.mp hx with hx | hx
    · exact hs.notEarly x hx
    · rw [hsent] at hx
      split at hx
      · obtain rfl := List.mem_singleton.mp hx
        rw [hcur] at hready
        exact hready
      · cases hx

/-- **One step** keeps the invariant; the only failure is the limit on the length. -/
theorem Delivering.step (hs : Delivering p s) {a : QueueAction} (ha : Allowed maxTick s a) :
    Ends (Delivering p) (fun e => e = .grownBeyondLimit ∧ p.disableSanityCheck = false)
      (s.step p a) := by
  cases a with
  | advance t =>
    obtain ⟨hle, hbound, hpass⟩ := ha
    refine ⟨⟨hbound, hs.timed.ticks, ?_, ?_⟩, hs.awake, hs.history.later hle, hs.notEarly⟩
    · intro e he
      obtain ⟨hwait, -, d, hd, hlow, hhigh⟩ := hs.timed.event e he
      refine ⟨hwait, hpass e he, d, hd, hlow, ?_⟩
      show e ≤ max d.tick (t + 1)
      omega
    · intro hwait
      obtain ⟨d, hd, hready⟩ := hs.timed.refused hwait
      exact ⟨d, hd, hready.trans hle⟩
  | schedSendTiming pkt when_ =>
    obtain ⟨hnow, hbound, hsnoop⟩ := ha
    refine (schedSendTiming_spec hs.timed hnow hsnoop hbound.ne).bind ?_
    rintro q' ⟨htimed, hawake, hcur, -, hhist⟩
    refine ⟨htimed, hawake hs.awake, ?_, hs.notEarly⟩
    show History p q'.curTick _ _ _
    rw [hcur]
    exact hhist _ _ hs.history
  | processSendEvent reply =>
    obtain ⟨hevent, hreply⟩ := ha
    obtain ⟨hwait, -, d, hd, hready, -⟩ := hs.timed.event _ hevent
    show Ends _ _ (PacketQueue.processSendEvent p s.queue reply >>= _)
    unfold PacketQueue.processSendEvent
    rw [hwait]
    exact hs.send (q := ⟨s.queue.transmitList, false, none, s.queue.curTick⟩) rfl rfl rfl rfl hd
      hready hreply
  | retry reply =>
    obtain ⟨hwait, hreply⟩ := ha
    obtain ⟨d, hd, hready⟩ := hs.timed.refused hwait
    have hevent : s.queue.sendEvent = none := by
      cases he : s.queue.sendEvent with
      | none => rfl
      | some e =>
        have hno := (hs.timed.event e he).1
        rw [hwait] at hno
        cases hno
    show Ends _ _ (PacketQueue.retry p s.queue reply >>= _)
    unfold PacketQueue.retry
    rw [hwait]
    exact hs.send (q := { s.queue with waitingOnRetry := false }) rfl rfl rfl hevent hd hready hreply

theorem delivering_init {start : ℕ} (hstart : start < maxTick) :
    Delivering p (QueueRun.init start) :=
  ⟨⟨hstart, nofun, nofun, nofun⟩, fun h => absurd rfl h,
    ⟨fun _ => rfl, List.Perm.nil, fun _ => List.Pairwise.nil, nofun⟩, nofun⟩

/-! ## Draining -/

/-- The port takes the packet and enqueues nothing. -/
def takes : PacketQueue.Reply := ⟨[], true⟩

/-- Time passing, and sends the port accepts. -/
def Serves : QueueAction → Prop
  | .advance _ => True
  | .schedSendTiming _ _ => False
  | .processSendEvent reply => reply = takes
  | .retry reply => reply = takes

/-- The front packet of a queue leaves when the port takes it. -/
theorem sendDeferredPacket_takes (hrun : q.curTick < maxTick)
    (hticks : ∀ d ∈ q.transmitList, d.tick ≠ maxTick) {rest : List DeferredPacket}
    (hlist : q.transmitList = d :: rest) (hwait : q.waitingOnRetry = false)
    (hevent : q.sendEvent = none) (hready : d.tick ≤ q.curTick) :
    ∃ e, q.sendDeferredPacket p takes = .ok ⟨rest, false, e, q.curTick⟩ := by
  obtain ⟨list, waiting, event, now⟩ := q
  dsimp only at hrun hticks hlist hwait hevent hready ⊢
  subst hlist hwait hevent
  have hsend : PacketQueue.sendDeferredPacket p ⟨d :: rest, false, none, now⟩ takes =
      PacketQueue.schedSendEvent ⟨rest, false, none, now⟩
        (PacketQueue.deferredPacketReadyTime ⟨rest, false, none, now⟩) := by
    show (require _ (decide (d.tick ≤ now)) >>= _) = _
    rw [require_ok (decide_eq_true hready)]
    rfl
  rw [hsend]
  cases rest with
  | nil => exact ⟨none, rfl⟩
  | cons d₁ rest₁ =>
    obtain ⟨e, hsched, -⟩ := schedSendEvent_spec (q := ⟨d₁ :: rest₁, false, none, now⟩) (d := d₁)
      hrun (fun x hx => hticks x (List.mem_cons_of_mem d hx)) rfl rfl nofun
    exact ⟨some e, hsched⟩

/-- A port that accepts takes the front packet next. -/
theorem Delivering.serve (hs : Delivering p s) {rest : List DeferredPacket}
    (hlist : s.queue.transmitList = d :: rest) (htick : d.tick < maxTick)
    (hnow : s.queue.curTick + 1 < maxTick) :
    ∃ as s', (∀ a ∈ as, Serves a) ∧ Admitted (Allowed maxTick) (QueueRun.step p) s as ∧
      run (QueueRun.step p) s as = .ok s' ∧ s'.queue.transmitList = rest ∧
      s'.enqueued = s.enqueued ∧ s'.queue.curTick ≤ max d.tick (s.queue.curTick + 1) := by
  have hsound : ∀ now, Sound maxTick now takes := fun now => ⟨nofun, nofun⟩
  have hhead : s.queue.transmitList.head? = some d := by
    rw [hlist]
    rfl
  cases hwait : s.queue.waitingOnRetry with
  | true =>
    obtain ⟨x, hx, hready⟩ := hs.timed.refused hwait
    obtain rfl := Option.some.inj (hhead.symm.trans hx)
    have hevent : s.queue.sendEvent = none := by
      by_contra hcon
      obtain ⟨e, he⟩ := Option.ne_none_iff_exists'.mp hcon
      have hno := (hs.timed.event e he).1
      rw [hwait] at hno
      cases hno
    obtain ⟨e, hsend⟩ := sendDeferredPacket_takes (p := p)
      (q := { s.queue with waitingOnRetry := false }) hs.timed.running hs.timed.ticks hlist rfl
      hevent hready
    have hstep : s.step p (.retry takes) =
        .ok ⟨⟨rest, false, e, s.queue.curTick⟩, s.enqueued ++ [], s.sent ++ QueueRun.sentBy s.queue takes⟩ := by
      refine bind_eq_ok.mpr ⟨_, ?_, rfl⟩
      unfold PacketQueue.retry
      rw [hwait]
      exact hsend
    refine ⟨[.retry takes], _, ?_, ⟨⟨hwait, hsound _⟩, fun _ _ => trivial⟩,
      run_cons_ok [] hstep, rfl, List.append_nil _, ?_⟩
    · intro a ha
      obtain rfl := List.mem_singleton.mp ha
      rfl
    · show s.queue.curTick ≤ _
      omega
  | false =>
    have hsched : s.queue.sendEvent ≠ none := by
      rcases hs.awake (by rw [hlist]; exact List.cons_ne_nil _ _) with hcon | h
      · rw [hwait] at hcon
        cases hcon
      · exact h
    obtain ⟨e, he⟩ := Option.ne_none_iff_exists'.mp hsched
    obtain ⟨-, hcur, x, hx, hready, hmax⟩ := hs.timed.event e he
    obtain rfl := Option.some.inj (hhead.symm.trans hx)
    have hbound : e < maxTick := by omega
    obtain ⟨e', hsend⟩ := sendDeferredPacket_takes (p := p)
      (q := ⟨s.queue.transmitList, false, none, e⟩) hbound hs.timed.ticks hlist rfl rfl hready
    set t : QueueRun := { s with queue := { s.queue with curTick := e } } with ht
    have hadvance : s.step p (.advance e) = .ok t := rfl
    have hstep : t.step p (.processSendEvent takes) =
        .ok ⟨⟨rest, false, e', e⟩, s.enqueued ++ [], s.sent ++ QueueRun.sentBy t.queue takes⟩ := by
      refine bind_eq_ok.mpr ⟨_, ?_, rfl⟩
      show (require _ (!s.queue.waitingOnRetry) >>= fun _ =>
        PacketQueue.sendDeferredPacket p ⟨s.queue.transmitList, s.queue.waitingOnRetry, none, e⟩
          takes) = _
      rw [hwait]
      exact hsend
    refine ⟨[.advance e, .processSendEvent takes], _, ?_, ?_,
      (run_cons_ok _ hadvance).trans (run_cons_ok [] hstep), rfl, List.append_nil _, hmax⟩
    · intro a ha
      rcases List.mem_cons.mp ha with rfl | ha
      · trivial
      · obtain rfl := List.mem_singleton.mp ha
        rfl
    · refine ⟨⟨hcur, hbound, ?_⟩, ?_⟩
      · intro e₁ he₁
        rw [he] at he₁
        exact (Option.some.inj he₁).le
      · intro t' ht'
        obtain rfl := Except.ok.inj (hadvance.symm.trans ht')
        exact ⟨⟨he, hsound _⟩, fun _ _ => trivial⟩

/-- **A port that accepts what it is offered gets every packet**, as long as there are ticks
left. -/
theorem Delivering.drain (hs : Delivering p s) {l : List DeferredPacket}
    (hlist : s.queue.transmitList = l) (hticks : ∀ d ∈ l, d.tick + l.length < maxTick)
    (hnow : s.queue.curTick + l.length < maxTick) :
    ∃ as s', (∀ a ∈ as, Serves a) ∧ Admitted (Allowed maxTick) (QueueRun.step p) s as ∧
      run (QueueRun.step p) s as = .ok s' ∧ s'.enqueued = s.enqueued ∧
      (s'.sent.map Prod.fst).Perm s.enqueued := by
  induction l generalizing s with
  | nil =>
    refine ⟨[], s, nofun, trivial, rfl, rfl, ?_⟩
    have hperm := hs.history.perm
    rw [hlist, List.append_nil] at hperm
    exact hperm
  | cons d rest ih =>
    have hd := hticks d List.mem_cons_self
    rw [List.length_cons] at hd hnow
    obtain ⟨as, s₁, hserve, hadm, hrun, hrest, henq, hcur⟩ :=
      hs.serve hlist (by omega) (by omega)
    have hs₁ : Delivering p s₁ := by
      have hends := run_ends (fun _ _ h ha => Delivering.step h ha) hs hadm
      rw [hrun] at hends
      exact hends
    obtain ⟨bs, s₂, hserve', hadm', hrun', henq', hperm⟩ := ih hs₁ hrest
      (fun x hx => by
        have hx' := hticks x (List.mem_cons_of_mem d hx)
        rw [List.length_cons] at hx'
        omega)
      (by omega)
    refine ⟨as ++ bs, s₂, ?_, ?_, (run_append_ok bs hrun).trans hrun', henq'.trans henq,
      henq ▸ hperm⟩
    · intro a ha
      rcases List.mem_append.mp ha with ha | ha
      · exact hserve a ha
      · exact hserve' a ha
    · refine hadm.append fun s' hs' => ?_
      obtain rfl := Except.ok.inj (hrun.symm.trans hs')
      exact hadm'

/-! ## Delivery -/

/-- **Delivery.**  In every run of a packet queue with ticks below `MaxTick` the only failure
is the panic at the length limit, when it is enabled.  In every state reached:

* the packets sent and the packets in the list are the packets enqueued, each once;
* no packet was sent before its tick;
* if there are packets, the queue waits for a retry, or its event is scheduled no later than
  the tick of the front packet or the next tick;
* without `forceOrder` packets are sent in the order of their ticks, and packets with the
  same tick in the order they were enqueued;
* with `forceOrder` packets to the same address are sent in the order they were enqueued;
* a port that accepts what it is offered gets every packet. -/
theorem packetQueue_delivery (p : QueueParams) (start : ℕ) (hstart : start < maxTick)
    (as : List QueueAction)
    (hallowed : Admitted (Allowed maxTick) (QueueRun.step p) (QueueRun.init start) as) :
    (∀ e, run (QueueRun.step p) (QueueRun.init start) as = .error e →
        e = .grownBeyondLimit ∧ p.disableSanityCheck = false) ∧
      ∀ s, run (QueueRun.step p) (QueueRun.init start) as = .ok s →
        (s.sent.map Prod.fst ++ s.queue.transmitList).Perm s.enqueued ∧
        (∀ x ∈ s.sent, x.1.tick ≤ x.2) ∧
        (∀ d ∈ s.queue.transmitList.head?, s.queue.waitingOnRetry = true ∨
          ∃ e, s.queue.sendEvent = some e ∧ e ≤ max d.tick (s.queue.curTick + 1)) ∧
        (p.forceOrder = false →
          (s.sent.map Prod.fst).Pairwise (fun d d' => d.tick ≤ d'.tick) ∧
          ∀ t, (s.sent.map Prod.fst ++ s.queue.transmitList).filter (·.tick = t) =
            s.enqueued.filter (·.tick = t)) ∧
        (p.forceOrder = true →
          ∀ pkt, (s.sent.map Prod.fst ++ s.queue.transmitList).filter (·.pkt.matchAddr pkt) =
            s.enqueued.filter (·.pkt.matchAddr pkt)) ∧
        ((∀ d ∈ s.queue.transmitList, d.tick + s.queue.transmitList.length < maxTick) →
          s.queue.curTick + s.queue.transmitList.length < maxTick →
          ∃ bs s', (∀ a ∈ bs, Serves a) ∧ Admitted (Allowed maxTick) (QueueRun.step p) s bs ∧
            run (QueueRun.step p) s bs = .ok s' ∧ s'.enqueued = s.enqueued ∧
            (s'.sent.map Prod.fst).Perm s.enqueued) := by
  have hends := run_ends (fun _ _ h ha => Delivering.step h ha) (delivering_init hstart) hallowed
  refine ⟨?_, ?_⟩
  · intro e he
    rw [he] at hends
    exact hends
  · intro s hrun
    rw [hrun] at hends
    have hs : Delivering p s := hends
    refine ⟨hs.history.perm, hs.notEarly, ?_, ?_, ?_, fun hticks hnow => hs.drain rfl hticks hnow⟩
    · intro d hd
      rcases hs.awake (by rintro hnil; rw [hnil] at hd; cases hd) with hwait | hsched
      · exact .inl hwait
      · obtain ⟨e, he⟩ := Option.ne_none_iff_exists'.mp hsched
        obtain ⟨-, -, x, hx, -, hmax⟩ := hs.timed.event e he
        obtain rfl := Option.some.inj (hx.symm.trans hd)
        exact .inr ⟨e, he, hmax⟩
    · intro hforce
      refine ⟨(List.pairwise_append.mp (hs.history.sorted hforce)).1, ?_⟩
      intro t
      have hclass : sameClass p ⟨t, ⟨0, 0, false, false⟩⟩ = fun d => decide (d.tick = t) := by
        funext d
        unfold sameClass
        rw [hforce, if_neg (by simp)]
        exact decide_eq_decide.mpr eq_comm
      rw [← hclass]
      exact hs.history.fifo _
    · intro hforce pkt
      have hclass : sameClass p ⟨0, pkt⟩ = fun d => d.pkt.matchAddr pkt := by
        funext d
        unfold sameClass
        rw [hforce, if_pos rfl, Bool.eq_iff_iff, Packet.matchAddr_iff, Packet.matchAddr_iff]
        exact and_congr eq_comm eq_comm
      rw [← hclass]
      exact hs.history.fifo _

def testPacket (id : ℕ) : Packet := ⟨id, 64, false, false⟩

/-- The second packet is due first, is refused, and its retry enqueues a third one. -/
def refusedOnce : List QueueAction :=
  [.schedSendTiming (testPacket 0) 5, .schedSendTiming (testPacket 1) 3, .advance 3,
    .processSendEvent ⟨[], false⟩, .advance 4, .retry ⟨[⟨5, testPacket 2⟩], true⟩]

theorem packetQueue_delivery_refusedOnce :
    Admitted (Allowed maxTick) (QueueRun.step ⟨false, false⟩) (QueueRun.init 0) refusedOnce ∧
      ∃ s, run (QueueRun.step ⟨false, false⟩) (QueueRun.init 0) refusedOnce = .ok s ∧
        s.sent = [(⟨3, testPacket 1⟩, 4)] ∧ s.queue.sendEvent = some 5 ∧
        (s.sent.map Prod.fst ++ s.queue.transmitList).Perm s.enqueued := by
  have hallowed : Admitted (Allowed maxTick) (QueueRun.step ⟨false, false⟩) (QueueRun.init 0)
      refusedOnce := by decide
  refine ⟨hallowed, ⟨⟨[⟨5, testPacket 0⟩, ⟨5, testPacket 2⟩], false, some 5, 4⟩,
    [⟨5, testPacket 0⟩, ⟨3, testPacket 1⟩, ⟨5, testPacket 2⟩], [(⟨3, testPacket 1⟩, 4)]⟩,
    rfl, rfl, rfl, ?_⟩
  exact ((packetQueue_delivery ⟨false, false⟩ 0 (by decide) refusedOnce hallowed).2 _ rfl).1

/-- With all 64-bit ticks, a packet for `MaxTick` is left without an event, and at `MaxTick` the
event of the next packet is scheduled in the past. -/
theorem packetQueue_at_maxTick :
    (∃ as s, Admitted (Allowed (2 ^ 64)) (QueueRun.step ⟨false, false⟩) (QueueRun.init 0) as ∧
        run (QueueRun.step ⟨false, false⟩) (QueueRun.init 0) as = .ok s ∧
        s.queue.transmitList ≠ [] ∧ s.queue.waitingOnRetry = false ∧ s.queue.sendEvent = none) ∧
      ∃ as, Admitted (Allowed (2 ^ 64)) (QueueRun.step ⟨false, false⟩) (QueueRun.init 0) as ∧
        run (QueueRun.step ⟨false, false⟩) (QueueRun.init 0) as = .error .eventInPast := by
  refine ⟨⟨[.schedSendTiming (testPacket 0) maxTick],
      ⟨⟨[⟨maxTick, testPacket 0⟩], false, none, 0⟩, [⟨maxTick, testPacket 0⟩], []⟩, ?_, rfl, ?_, rfl,
      rfl⟩, ⟨[.advance (maxTick - 1), .schedSendTiming (testPacket 0) (maxTick - 1),
        .schedSendTiming (testPacket 1) (maxTick - 1), .advance maxTick,
        .processSendEvent ⟨[], true⟩], ?_, rfl⟩⟩
  · decide
  · exact List.cons_ne_nil _ _
  · decide

end Gem5.Mem
