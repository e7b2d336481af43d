/-
# Learning of an Ethernet switch

Embedding of `EtherSwitch::Interface::recvPacket` and of the forwarding table
(`dev/net/etherswitch.cc`).  A packet teaches the switch the port of its source; it goes to the port
that is known for its destination, or to all ports but its own.  What a port does with a packet is
in `EtherPort`.

An entry of the table is never moved to another port, only refreshed.  As long as no host changes
its port while it is in the table, every packet is queued where its destination was last seen
(`packets_forwarded`).

The time to live is a `double` there, with which ages are compared exactly below `2 ^ 53` ticks.
-/
import Gem5.EtherPort

namespace Gem5

open Runs

namespace EtherSwitch

/-! ## Addresses -/

namespace EthAddr

/-- The conversion to `uint64_t`. -/
def toNat (a : EthAddr) : ℕ :=
  a.data[0].toNat * 2 ^ 40 + a.data[1].toNat * 2 ^ 32 + a.data[2].toNat * 2 ^ 24 +
    a.data[3].toNat * 2 ^ 16 + a.data[4].toNat * 2 ^ 8 + a.data[5].toNat

def unicast (a : EthAddr) : Bool := a.data[0] &&& 1#8 == 0#8

def broadcast (a : EthAddr) : Bool := a.data.all (· == 0xff#8)

def multicast (a : EthAddr) : Bool := !a.unicast && !a.broadcast

theorem toNat_injective : Function.Injective toNat := by
  intro a b h
  rw [toNat, toNat] at h
  have hbyte : ∀ (i : ℕ) (hi : i < 6), a.data[i].toNat < 2 ^ 8 ∧ b.data[i].toNat < 2 ^ 8 :=
    fun i hi => ⟨BitVec.isLt _, BitVec.isLt _⟩
  have h0 := hbyte 0 (by omega)
  have h1 := hbyte 1 (by omega)
  have h2 := hbyte 2 (by omega)
  have h3 := hbyte 3 (by omega)
  have h4 := hbyte 4 (by omega)
  have h5 := hbyte 5 (by omega)
  have hsame : a.data = b.data := by
    refine Vector.ext fun i hi => BitVec.eq_of_toNat_eq ?_
    interval_cases i <;> omega
  cases a
  cases b
  exact congrArg mk hsame

attribute [irreducible] toNat

/-- An address is of one host, or of a group. -/
theorem group_iff (a : EthAddr) : (a.multicast || a.broadcast) = !a.unicast := by
  cases hb : a.broadcast with
  | false => rw [multicast, hb, Bool.not_false, Bool.and_true, Bool.or_false]
  | true =>
    have hfirst : a.data[0] = 0xff#8 := by
      rw [broadcast, Vector.all_eq_true] at hb
      exact beq_iff_eq.mp (hb 0 (by omega))
    rw [multicast, hb, unicast, hfirst]
    rfl

end EthAddr

end EtherSwitch

open EtherSwitch

/-! ## The switch -/

structure SwitchTableEntry where
  interface : ℕ
  lastUseTime : ℕ
  deriving DecidableEq, Repr

/-- A packet that was received, and the ports on which it was queued. -/
structure Reception where
  port : ℕ
  tick : ℕ
  packet : EthPacket
  queued : List ℕ
  deriving DecidableEq, Repr

/-- The switch, at the tick `now`, with a log of what it received. -/
structure EtherSwitch where
  ttl : ℕ
  interfaces : ℕ
  forwardingTable : ℕ → Option SwitchTableEntry
  now : ℕ
  received : List Reception

/-- A packet arrives on a port. -/
structure Arrival where
  port : ℕ
  tick : ℕ
  packet : EthPacket
  deriving DecidableEq, Repr

namespace EtherSwitch

/-- The entry of a source after a packet from it: a new one, or the old one used again. -/
def learnedEntry (entry : Option SwitchTableEntry) (sender now : ℕ) : SwitchTableEntry :=
  match entry with
  | none => ⟨sender, now⟩
  | some entry => { entry with lastUseTime := now }

/-- `EtherSwitch::Interface::learnSenderAddr` -/
def learnSenderAddr (sw : EtherSwitch) (srcMacAddr : EthAddr) (sender : ℕ) : EtherSwitch :=
  { sw with
    forwardingTable := Function.update sw.forwardingTable srcMacAddr.toNat
      (some (learnedEntry (sw.forwardingTable srcMacAddr.toNat) sender sw.now)) }

/-- `EtherSwitch::Interface::lookupDestPort` -/
def lookupDestPort (sw : EtherSwitch) (destMacAddr : EthAddr) : Option ℕ × EtherSwitch :=
  match sw.forwardingTable destMacAddr.toNat with
  | none => (none, sw)
  | some entry =>
      if sw.now - entry.lastUseTime > sw.ttl then
        (none, { sw with
          forwardingTable := Function.update sw.forwardingTable destMacAddr.toNat none })
      else (some entry.interface, sw)

/-- The ports but one, in order. -/
def others (sw : EtherSwitch) (port : ℕ) : List ℕ :=
  (List.range sw.interfaces).filter fun it => it ≠ port

/-- The ports on which `recvPacket` queues a packet. -/
def receivers (sw : EtherSwitch) (port : ℕ) (receiver : Option ℕ) (dst : EthAddr) : List ℕ :=
  match receiver with
  | none => sw.others port
  | some receiver => if dst.multicast || dst.broadcast then sw.others port else [receiver]

/-- The part of `recvPacket` after the source is learned: the packet is queued. -/
def forward (sw : EtherSwitch) (a : Arrival) : EtherSwitch :=
  let found := sw.lookupDestPort a.packet.dst
  let queued := found.2.receivers a.port found.1 a.packet.dst
  { found.2 with received := found.2.received ++ [⟨a.port, a.tick, a.packet, queued⟩] }

/-- `EtherSwitch::Interface::recvPacket` -/
def recvPacket (sw : EtherSwitch) (a : Arrival) : EtherSwitch :=
  ({ sw with now := a.tick }.learnSenderAddr a.packet.src a.port).forward a

def step (sw : EtherSwitch) (a : Arrival) : Except Empty EtherSwitch := .ok (sw.recvPacket a)

def new (ttl interfaces : ℕ) : EtherSwitch := ⟨ttl, interfaces, fun _ => none, 0, []⟩

/-! ## Where packets should go -/

/-- The port and the tick at which an address was last seen as a source. -/
def lastSource (received : List Reception) (addr : EthAddr) : Option (ℕ × ℕ) :=
  (received.reverse.find? fun r => r.packet.src = addr).map fun r => (r.port, r.tick)

/-- The ports for a packet, from what was received up to it: the port at which its destination was
last seen, for one host that was seen within `ttl` ticks, and all ports but its own otherwise. -/
def wanted (sw : EtherSwitch) (received : List Reception) (r : Reception) : List ℕ :=
  match lastSource received r.packet.dst with
  | none => sw.others r.port
  | some (port, tick) =>
      if r.packet.dst.unicast && decide (r.tick - tick ≤ sw.ttl) then [port] else sw.others r.port

/-- **Every packet was queued where it should be.** -/
def Forwarded (sw : EtherSwitch) : Prop :=
  ∀ before r after, sw.received = before ++ r :: after →
    r.queued = sw.wanted (before ++ [r]) r

/-- What can happen: ticks do not decrease. -/
def Possible (sw : EtherSwitch) (a : Arrival) : Prop := sw.now ≤ a.tick ∧ a.port < sw.interfaces

/-- What the switch can handle: the source is not in the table at another port. -/
def Settled (sw : EtherSwitch) (a : Arrival) : Prop :=
  ∀ entry ∈ sw.forwardingTable a.packet.src.toNat, entry.interface = a.port

instance (sw : EtherSwitch) : DecidablePred sw.Possible :=
  fun _ => inferInstanceAs (Decidable (_ ∧ _))

instance (sw : EtherSwitch) : DecidablePred sw.Settled :=
  fun _ => inferInstanceAs (Decidable (∀ entry ∈ _, _))

/-! ## The table -/

theorem lastSource_snoc (received : List Reception) (r : Reception) (addr : EthAddr) :
    lastSource (received ++ [r]) addr =
      if r.packet.src = addr then some (r.port, r.tick) else lastSource received addr := by
  rw [lastSource, List.reverse_append, List.reverse_singleton, List.singleton_append,
    List.find?_cons]
  by_cases h : r.packet.src = addr
  · rw [if_pos h, decide_eq_true h]
    rfl
  · rw [if_neg h, decide_eq_false h]
    rfl

/-- An entry agrees with the last sight of its address: it is that sight, and there is none only
where nothing was seen within `ttl` ticks. -/
def Agrees (ttl now : ℕ) : Option SwitchTableEntry → Option (ℕ × ℕ) → Prop
  | some entry, sight => sight = some (entry.interface, entry.lastUseTime)
  | none, sight => ∀ s ∈ sight, ttl < now - s.2

section

variable {ttl now port : ℕ} {sight : Option (ℕ × ℕ)} {entry : Option SwitchTableEntry}

/-- What is not seen for long stays so. -/
theorem Agrees.later (h : Agrees ttl now entry sight) {tick : ℕ} (hle : now ≤ tick) :
    Agrees ttl tick entry sight := by
  cases entry with
  | some entry => exact h
  | none => exact fun s hs => (h s hs).trans_le (Nat.sub_le_sub_right hle _)

/-- The entry learned from a packet that did not change its port is the sight of that packet. -/
theorem agrees_learned (hsettled : ∀ e ∈ entry, e.interface = port) :
    Agrees ttl now (some (learnedEntry entry port now)) (some (port, now)) := by
  cases entry with
  | none => exact rfl
  | some entry =>
    change some (port, now) = some (entry.interface, now)
    rw [hsettled entry rfl]

end

/-- **The table knows the ports**: the entry of every address agrees with its last sight. -/
def Knows (ttl now : ℕ) (table : ℕ → Option SwitchTableEntry)
    (seen : EthAddr → Option (ℕ × ℕ)) : Prop :=
  ∀ addr : EthAddr, Agrees ttl now (table addr.toNat) (seen addr)

section

variable {ttl now port : ℕ} {table : ℕ → Option SwitchTableEntry}
  {seen : EthAddr → Option (ℕ × ℕ)}

theorem Knows.later (h : Knows ttl now table seen) {tick : ℕ} (hle : now ≤ tick) :
    Knows ttl tick table seen := fun addr => (h addr).later hle

/-- **Learning** the source of a packet that did not change its port. -/
theorem Knows.learn (h : Knows ttl now table seen) {src : EthAddr}
    (hsettled : ∀ entry ∈ table src.toNat, entry.interface = port) :
    Knows ttl now
      (Function.update table src.toNat (some (learnedEntry (table src.toNat) port now)))
      fun addr => if src = addr then some (port, now) else seen addr := by
  intro addr
  beta_reduce
  by_cases heq : src = addr
  · rw [← heq, Function.update_self, if_pos rfl]
    exact agrees_learned hsettled
  · have hne : addr.toNat ≠ src.toNat := fun hc => heq (EthAddr.toNat_injective hc).symm
    rw [Function.update_of_ne hne, if_neg heq]
    exact h addr

/-- An entry that has expired is removed. -/
theorem Knows.expire (h : Knows ttl now table seen) {dst : EthAddr} {entry : SwitchTableEntry}
    (hentry : table dst.toNat = some entry) (hold : ttl < now - entry.lastUseTime) :
    Knows ttl now (Function.update table dst.toNat none) seen := by
  intro addr
  by_cases heq : addr = dst
  · have haddr := h addr
    rw [heq, hentry] at haddr
    rw [heq, Function.update_self]
    intro sight hs
    have hsight : seen dst = some (entry.interface, entry.lastUseTime) := haddr
    rw [hsight] at hs
    obtain rfl := Option.some.inj hs
    exact hold
  · have hne : addr.toNat ≠ dst.toNat := fun hc => heq (EthAddr.toNat_injective hc)
    rw [Function.update_of_ne hne]
    exact h addr

end

/-! ## Runs -/

/-- The invariant of the switch. -/
structure Sound (sw : EtherSwitch) : Prop where
  knows : Knows sw.ttl sw.now sw.forwardingTable (lastSource sw.received)
  forwarded : sw.Forwarded

/-- **The lookup** finds the port on which the packet is wanted, and keeps what the table knows. -/
theorem lookup_wanted {sw : EtherSwitch} {received : List Reception} {r : Reception}
    (h : Knows sw.ttl sw.now sw.forwardingTable (lastSource received)) (htick : r.tick = sw.now) :
    sw.receivers r.port (sw.lookupDestPort r.packet.dst).1 r.packet.dst = sw.wanted received r ∧
      ∃ table, (sw.lookupDestPort r.packet.dst).2 = { sw with forwardingTable := table } ∧
        Knows sw.ttl sw.now table (lastSource received) := by
  have haddr := h r.packet.dst
  rw [lookupDestPort]
  cases hentry : sw.forwardingTable r.packet.dst.toNat with
  | none =>
    rw [hentry] at haddr
    refine ⟨?_, sw.forwardingTable, rfl, h⟩
    rw [wanted]
    cases hsight : lastSource received r.packet.dst with
    | none => rfl
    | some sight =>
      have hold := haddr sight hsight
      have hexpired : decide (r.tick - sight.2 ≤ sw.ttl) = false := by
        rw [htick]
        exact decide_eq_false (Nat.not_le.mpr hold)
      dsimp only
      rw [hexpired, Bool.and_false, if_neg Bool.false_ne_true]
      rfl
  | some entry =>
    rw [hentry] at haddr
    by_cases hold : sw.now - entry.lastUseTime > sw.ttl
    · dsimp only
      rw [if_pos hold]
      refine ⟨?_, _, rfl, h.expire hentry hold⟩
      have hexpired : decide (r.tick - entry.lastUseTime ≤ sw.ttl) = false := by
        rw [htick]
        exact decide_eq_false (Nat.not_le.mpr hold)
      rw [wanted, haddr]
      dsimp only
      rw [hexpired, Bool.and_false, if_neg Bool.false_ne_true]
      rfl
    · dsimp only
      rw [if_neg hold]
      refine ⟨?_, sw.forwardingTable, rfl, h⟩
      have hfresh : decide (r.tick - entry.lastUseTime ≤ sw.ttl) = true := by
        rw [htick]
        exact decide_eq_true (Nat.not_lt.mp hold)
      rw [wanted, haddr]
      dsimp only [receivers]
      rw [EthAddr.group_iff, hfresh, Bool.and_true]
      cases r.packet.dst.unicast <;> rfl

/-- What is logged of a packet, and the table after it. -/
theorem forward_eq {sw : EtherSwitch} {a : Arrival} {table : ℕ → Option SwitchTableEntry}
    (hlookup : (sw.lookupDestPort a.packet.dst).2 = { sw with forwardingTable := table }) :
    sw.forward a = { sw with
      forwardingTable := table
      received := sw.received ++ [⟨a.port, a.tick, a.packet,
        sw.receivers a.port (sw.lookupDestPort a.packet.dst).1 a.packet.dst⟩] } := by
  unfold forward
  dsimp only
  rw [hlookup]
  rfl

/-- **A switch that knows the source** queues the packet where it should be. -/
theorem forward_sound {sw : EtherSwitch} {a : Arrival} (hforwarded : sw.Forwarded)
    (htick : sw.now = a.tick)
    (hknows : ∀ queued, Knows sw.ttl sw.now sw.forwardingTable
      (lastSource (sw.received ++ [⟨a.port, a.tick, a.packet, queued⟩]))) :
    (sw.forward a).Sound := by
  generalize hqueued : sw.receivers a.port (sw.lookupDestPort a.packet.dst).1 a.packet.dst = queued
  obtain ⟨hwanted, table, hlookup, hkept⟩ := lookup_wanted
    (r := ⟨a.port, a.tick, a.packet, queued⟩) (hknows queued) htick.symm
  rw [forward_eq hlookup, hqueued]
  rw [hqueued] at hwanted
  refine ⟨hkept, fun before r after hsplit => ?_⟩
  rcases List.eq_nil_or_concat' after with rfl | ⟨init, last, rfl⟩
  · obtain ⟨rfl, hlast⟩ := List.append_inj' hsplit rfl
    obtain ⟨rfl, -⟩ := List.cons.inj hlast
    exact hwanted
  · rw [← List.cons_append, ← List.append_assoc] at hsplit
    exact hforwarded before r init (List.append_inj' hsplit rfl).1

/-- **A packet from a settled host** is queued where it should be. -/
theorem Sound.recvPacket {sw : EtherSwitch} (h : sw.Sound) {a : Arrival} (hpossible : sw.Possible a)
    (hsettled : sw.Settled a) : (sw.recvPacket a).Sound := by
  refine forward_sound h.forwarded rfl fun queued => ?_
  have hseen : lastSource (sw.received ++ [⟨a.port, a.tick, a.packet, queued⟩]) =
      fun addr => if a.packet.src = addr then some (a.port, a.tick)
        else lastSource sw.received addr := funext fun addr => lastSource_snoc _ _ addr
  have hknows := (h.knows.later hpossible.1).learn hsettled
  rw [← hseen] at hknows
  exact hknows

theorem sound_new (ttl interfaces : ℕ) : (new ttl interfaces).Sound where
  knows _ := nofun
  forwarded before r after hsplit := absurd hsplit.symm (by simp [new])

/-- **Every packet is queued where its destination was last seen**, or on all other ports, in every
run in which no host sends from a port while the table has it at another one. -/
theorem packets_forwarded (ttl interfaces : ℕ) {as : List Arrival}
    (ha : Admitted (fun sw a => sw.Possible a ∧ sw.Settled a) step (new ttl interfaces) as) :
    ∃ sw, run step (new ttl interfaces) as = .ok sw ∧ sw.Forwarded := by
  obtain ⟨sw, hrun, hsound⟩ := run_total
    (fun _ _ h ha => ⟨_, rfl, h.recvPacket ha.1 ha.2⟩) (sound_new ttl interfaces) ha
  exact ⟨sw, hrun, hsound.forwarded⟩

/-- Addresses for examples: the last byte counts. -/
def host (n : BitVec 8) : EthAddr := ⟨#v[0, 0, 0, 0, 0, n]⟩

/-- A host is learned, found, and forgotten. -/
theorem packets_forwarded_learning :
    ∃ sw, run step (new 10 3)
      [⟨0, 0, ⟨0, host 2, host 1, 64⟩⟩, ⟨1, 5, ⟨1, host 1, host 2, 64⟩⟩,
        ⟨2, 40, ⟨2, host 1, host 3, 64⟩⟩] = .ok sw ∧ sw.Forwarded :=
  packets_forwarded 10 3 (by decide +kernel)

/-- A host that moves from port `0` to port `1` is still sent its packets at port `0`. -/
theorem moved_host_missed :
    ∃ sw, run step (new 1000 3)
        [⟨0, 0, ⟨0, host 2, host 1, 64⟩⟩, ⟨1, 10, ⟨1, host 2, host 1, 64⟩⟩,
          ⟨2, 20, ⟨2, host 1, host 2, 64⟩⟩] = .ok sw ∧ ¬ sw.Forwarded := by
  have hrun : ∃ sw, run step (new 1000 3)
      [⟨0, 0, ⟨0, host 2, host 1, 64⟩⟩, ⟨1, 10, ⟨1, host 2, host 1, 64⟩⟩,
        ⟨2, 20, ⟨2, host 1, host 2, 64⟩⟩] = .ok sw ∧
      (sw.received = [⟨0, 0, ⟨0, host 2, host 1, 64⟩, [1, 2]⟩,
          ⟨1, 10, ⟨1, host 2, host 1, 64⟩, [0, 2]⟩, ⟨2, 20, ⟨2, host 1, host 2, 64⟩, [0]⟩] ∧
        sw.wanted sw.received ⟨2, 20, ⟨2, host 1, host 2, 64⟩, [0]⟩ = [1]) := by
    decide +kernel
  obtain ⟨sw, hsw, hreceived, hwanted⟩ := hrun
  refine ⟨sw, hsw, fun h => ?_⟩
  have hqueued := h [⟨0, 0, ⟨0, host 2, host 1, 64⟩, [1, 2]⟩,
    ⟨1, 10, ⟨1, host 2, host 1, 64⟩, [0, 2]⟩] ⟨2, 20, ⟨2, host 1, host 2, 64⟩, [0]⟩ [] hreceived
  rw [hreceived] at hwanted
  exact absurd (hqueued.trans hwanted) (by decide)

end EtherSwitch

end Gem5
