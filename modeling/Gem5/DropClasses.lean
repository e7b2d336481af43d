/-
# How the network card classifies its drops

`IGbE::updateDropFSM` (`dev/net/i8254xGBe.cc`) follows which of three buffers are full when a packet
arrives and charges each dropped packet to the DMA, the core or the transmit side.  Its state
`currState` is a variable of the file and not of the card, so all cards of a system move one
machine.  The counters of a card are those of its own machine exactly as long as every drop finds
the shared state in the same class as the last observation of the card (`per_device_iff`).
-/
import Gem5.PacketFifo

namespace Runs

variable {σ α ε : Type*}

/-- **The exactness rule.**  If a step from a state with `P` gives a state with `P` exactly when it
is admitted, then `P` holds after all first parts of a run exactly when the run is admitted. -/
theorem always_iff_admitted {adm : σ → α → Prop} {step : σ → α → Except ε σ} {P : σ → Prop}
    {I : σ → Prop} (hI : ∀ s a t, I s → step s a = .ok t → I t)
    (hok : ∀ s a t, I s → P s → step s a = .ok t → (P t ↔ adm s a))
    (herr : ∀ s a e, step s a = .error e → adm s a) {s : σ} (hinv : I s) (hs : P s)
    (as : List α) :
    (∀ bs, bs <+: as → ∀ t, run step s bs = .ok t → P t) ↔ Admitted adm step s as := by
  induction as generalizing s with
  | nil =>
    refine ⟨fun _ => trivial, fun _ bs hbs t ht => ?_⟩
    rw [List.prefix_nil.mp hbs] at ht
    cases ht
    exact hs
  | cons a as ih =>
    cases hstep : step s a with
    | error e =>
      refine ⟨fun _ => ⟨herr s a e hstep, fun t ht => ?_⟩, fun _ bs hbs t ht => ?_⟩
      · rw [hstep] at ht
        cases ht
      · cases bs with
        | nil =>
          cases ht
          exact hs
        | cons b bs =>
          rw [(List.cons_prefix_cons.mp hbs).1, run_cons_error bs hstep] at ht
          cases ht
    | ok u =>
      have hu := hok s a u hinv hs hstep
      constructor
      · intro h
        have hPu : P u := h [a] (List.cons_prefix_cons.mpr ⟨rfl, List.nil_prefix⟩) u
          (run_cons_ok [] hstep)
        refine ⟨hu.mp hPu, fun t ht => ?_⟩
        rw [hstep, Except.ok.injEq] at ht
        subst ht
        refine (ih (hI s a u hinv hstep) hPu).mp fun bs hbs t ht => ?_
        exact h (a :: bs) (List.cons_prefix_cons.mpr ⟨rfl, hbs⟩) t
          ((run_cons_ok bs hstep).trans ht)
      · rintro ⟨hadm, hrest⟩ bs hbs t ht
        cases bs with
        | nil =>
          cases ht
          exact hs
        | cons b bs =>
          obtain ⟨rfl, hprefix⟩ := List.cons_prefix_cons.mp hbs
          rw [run_cons_ok bs hstep] at ht
          exact (ih (hI s b u hinv hstep) (hu.mpr hadm)).mpr (hrest u hstep) bs hprefix t ht

end Runs

namespace Gem5.IGbE

open Runs Ethernet

/-! ## The machine -/

/-- What a packet finds when it arrives. -/
structure Observation where
  rxFifoFull : Bool
  rxRingFull : Bool
  txRingFull : Bool
  deriving DecidableEq, Repr

/-- The letters of `currState`, each an observation: no buffer full (`A`) up to all full (`H`). -/
inductive DropState
  | A
  | B
  | C
  | D
  | E
  | F
  | G
  | H
  deriving DecidableEq, Repr

/-- The counters of the drops, by cause. -/
structure Drops where
  dmaDrops : ℕ
  coreDrops : ℕ
  txDrops : ℕ
  deriving DecidableEq, Repr

def Drops.dmaDrop (d : Drops) : Drops := { d with dmaDrops := d.dmaDrops + 1 }
def Drops.coreDrop (d : Drops) : Drops := { d with coreDrops := d.coreDrops + 1 }
def Drops.txDrop (d : Drops) : Drops := { d with txDrops := d.txDrops + 1 }

def Drops.total (d : Drops) : ℕ := d.dmaDrops + d.coreDrops + d.txDrops

/-- `IGbE::updateDropFSM`: the next state and the counters.  The last row of a state is the final
`else` of its branch. -/
def updateDropFSM (currState : DropState) (o : Observation) (d : Drops) : DropState × Drops :=
  match currState with
  | .A =>
      match o.rxFifoFull, o.rxRingFull, o.txRingFull with
      | false, false, true => (.B, d)
      | false, true, false => (.C, d)
      | true, false, false => (.E, d.dmaDrop)
      | true, false, true => (.F, d.dmaDrop)
      | true, true, false => (.G, d.coreDrop)
      | false, true, true => (.D, d)
      | true, true, true => (.H, d.txDrop)
      | _, _, _ => (.A, d)
  | .B =>
      match o.rxFifoFull, o.rxRingFull, o.txRingFull with
      | false, false, false => (.A, d)
      | false, true, false => (.C, d)
      | true, false, false => (.E, d.dmaDrop)
      | true, false, true => (.F, d.dmaDrop)
      | true, true, false => (.G, d.coreDrop)
      | false, true, true => (.D, d)
      | true, true, true => (.H, d.txDrop)
      | _, _, _ => (.B, d)
  | .C =>
      match o.rxFifoFull, o.rxRingFull, o.txRingFull with
      | false, false, false => (.A, d)
      | false, false, true => (.B, d)
      | true, false, false => (.E, d.coreDrop)
      | true, false, true => (.F, d.coreDrop)
      | true, true, false => (.G, d.coreDrop)
      | false, true, true => (.D, d)
      | true, true, true => (.H, d.coreDrop)
      | _, _, _ => (.C, d)
  | .D =>
      match o.rxFifoFull, o.rxRingFull, o.txRingFull with
      | false, false, false => (.A, d)
      | false, false, true => (.B, d)
      | true, false, false => (.E, d.coreDrop)
      | true, false, true => (.F, d.coreDrop)
      | true, true, false => (.G, d.coreDrop)
      | false, true, false => (.C, d)
      | true, true, true => (.H, d.txDrop)
      | _, _, _ => (.D, d)
  | .E =>
      match o.rxFifoFull, o.rxRingFull, o.txRingFull with
      | false, false, false => (.A, d)
      | false, false, true => (.B, d)
      | false, true, true => (.D, d)
      | true, false, true => (.F, d.dmaDrop)
      | true, true, false => (.G, d.coreDrop)
      | false, true, false => (.C, d)
      | true, true, true => (.H, d.txDrop)
      | _, _, _ => (.E, d.dmaDrop)
  | .F =>
      match o.rxFifoFull, o.rxRingFull, o.txRingFull with
      | false, false, false => (.A, d)
      | false, false, true => (.B, d)
      | false, true, true => (.D, d)
      | true, false, false => (.E, d.dmaDrop)
      | true, true, false => (.G, d.coreDrop)
      | false, true, false => (.C, d)
      | true, true, true => (.H, d.txDrop)
      | _, _, _ => (.F, d.dmaDrop)
  | .G =>
      match o.rxFifoFull, o.rxRingFull, o.txRingFull with
      | false, false, false => (.A, d)
      | false, false, true => (.B, d)
      | false, true, true => (.D, d)
      | true, false, false => (.E, d.dmaDrop)
      | true, false, true => (.F, d.dmaDrop)
      | false, true, false => (.C, d)
      | true, true, true => (.H, d.txDrop)
      | _, _, _ => (.G, d.coreDrop)
  | .H =>
      match o.rxFifoFull, o.rxRingFull, o.txRingFull with
      | false, false, false => (.A, d)
      | false, false, true => (.B, d)
      | false, true, true => (.D, d)
      | true, false, false => (.E, d.dmaDrop)
      | true, false, true => (.F, d.dmaDrop)
      | false, true, false => (.C, d)
      | true, true, false => (.G, d.coreDrop)
      | _, _, _ => (.H, d.txDrop)

/-- The letter of an observation. -/
def Observation.letter (o : Observation) : DropState :=
  match o.rxFifoFull, o.rxRingFull, o.txRingFull with
  | false, false, false => .A
  | false, false, true => .B
  | false, true, false => .C
  | false, true, true => .D
  | true, false, false => .E
  | true, false, true => .F
  | true, true, false => .G
  | true, true, true => .H

/-- The count of a packet: none if it is stored.  The state matters in two cases: it was `C` or `D`
and the ring has room again, or it was `C` and both rings are full now. -/
def Drops.count (currState : DropState) (o : Observation) (d : Drops) : Drops :=
  match o.rxFifoFull, o.rxRingFull, o.txRingFull with
  | false, _, _ => d
  | true, false, _ => if currState = .C ∨ currState = .D then d.coreDrop else d.dmaDrop
  | true, true, false => d.coreDrop
  | true, true, true => if currState = .C then d.coreDrop else d.txDrop

/-- **The whole table**: the next state is the letter of the observation, whatever the state. -/
theorem updateDropFSM_eq (currState : DropState) (o : Observation) (d : Drops) :
    updateDropFSM currState o d = (o.letter, d.count currState o) := by
  obtain ⟨rxFifoFull, rxRingFull, txRingFull⟩ := o
  cases currState <;> cases rxFifoFull <;> cases rxRingFull <;> cases txRingFull <;> rfl

/-- A dropped packet is counted once, a stored one not at all. -/
theorem Drops.count_total (currState : DropState) (o : Observation) (d : Drops) :
    (d.count currState o).total = d.total + o.rxFifoFull.toNat := by
  obtain ⟨rxFifoFull, rxRingFull, txRingFull⟩ := o
  cases rxFifoFull <;> cases rxRingFull <;> cases txRingFull <;> simp only [Drops.count] <;>
    try split
  all_goals simp only [Drops.total, dmaDrop, coreDrop, txDrop, Bool.toNat_true, Bool.toNat_false]
  all_goals omega

/-- Two states charge the packet to the same cause. -/
def Alike (own shared : DropState) (o : Observation) : Prop :=
  match o.rxFifoFull, o.rxRingFull, o.txRingFull with
  | false, _, _ => True
  | true, false, _ => (own = .C ∨ own = .D ↔ shared = .C ∨ shared = .D)
  | true, true, false => True
  | true, true, true => (own = .C ↔ shared = .C)

theorem count_eq_iff {own shared : DropState} {o : Observation} (d : Drops) :
    d.count shared o = d.count own o ↔ Alike own shared o := by
  have hdma : d.coreDrop ≠ d.dmaDrop := fun h => by
    have := congrArg Drops.coreDrops h
    simp [Drops.coreDrop, Drops.dmaDrop] at this
  have htx : d.coreDrop ≠ d.txDrop := fun h => by
    have := congrArg Drops.coreDrops h
    simp [Drops.coreDrop, Drops.txDrop] at this
  obtain ⟨rxFifoFull, rxRingFull, txRingFull⟩ := o
  cases rxFifoFull with
  | false => simp [Drops.count, Alike]
  | true =>
    cases rxRingFull with
    | false =>
      simp only [Drops.count, Alike]
      by_cases hown : own = .C ∨ own = .D <;> by_cases hshared : shared = .C ∨ shared = .D <;>
        simp [hown, hshared, hdma, hdma.symm]
    | true =>
      cases txRingFull with
      | false => simp [Drops.count, Alike]
      | true =>
        simp only [Drops.count, Alike]
        by_cases hown : own = .C <;> by_cases hshared : shared = .C <;>
          simp [hown, hshared, htx, htx.symm]

/-! ## The cards -/

/-- `etherDeviceStats`, as far as the reception of packets changes it. -/
structure EtherDeviceStats extends Drops where
  rxBytes : ℕ
  rxPackets : ℕ
  rxdisabledDrops : ℕ
  rxFifoFullCount : ℕ
  deriving DecidableEq, Repr

/-- What `ethRxPkt` looks at: whether reception is enabled (`regs.rctl.en()`), the descriptors left
in the two rings, whether a packet is being transmitted, and the FIFO. -/
structure RxSide where
  rctlEn : Bool
  rxDescLeft : ℕ
  txPacketWaiting : Bool
  txDescLeft : ℕ
  rxFifo : PacketFifo
  deriving DecidableEq, Repr

structure Nic extends RxSide where
  stats : EtherDeviceStats
  deriving DecidableEq, Repr

/-- `IGbE::ethRxPkt` on the card and on `currState`. -/
def ethRxPkt (currState : DropState) (n : Nic) (pkt : EthPacketData) :
    Except FifoError (Bool × DropState × Nic) := do
  let stats := { n.stats with
    rxBytes := n.stats.rxBytes + pkt.length
    rxPackets := n.stats.rxPackets + 1 }
  if !n.rctlEn then
    return (true, currState,
      { n with stats := { stats with rxdisabledDrops := stats.rxdisabledDrops + 1 } })
  let rxRingFull := n.rxDescLeft == 0
  let txRingFull := !n.txPacketWaiting && n.txDescLeft == 1024
  let (pushed, rxFifo) ← n.rxFifo.push pkt
  if !pushed then
    let (currState, drops) := updateDropFSM currState ⟨true, rxRingFull, txRingFull⟩ stats.toDrops
    return (false, currState,
      { n with
        rxFifo := rxFifo
        stats := { stats with
          toDrops := drops
          rxFifoFullCount := stats.rxFifoFullCount + 1 } })
  let (currState, drops) := updateDropFSM currState ⟨false, rxRingFull, txRingFull⟩ stats.toDrops
  return (true, currState, { n with rxFifo := rxFifo, stats := { stats with toDrops := drops } })

/-- What a card passes to the machine when it receives a packet. -/
def Nic.observation (n : Nic) (pkt : EthPacketData) : Option Observation :=
  if !n.rctlEn then none
  else
    match n.rxFifo.push pkt with
    | .ok (pushed, _) =>
        some ⟨!pushed, n.rxDescLeft == 0, !n.txPacketWaiting && n.txDescLeft == 1024⟩
    | .error _ => none

/-- **What a reception does to the machine and to the counters.** -/
theorem ethRxPkt_spec {currState : DropState} {n : Nic} {pkt : EthPacketData}
    {r : Bool × DropState × Nic} (h : ethRxPkt currState n pkt = .ok r) :
    match n.observation pkt with
    | none => r.2.1 = currState ∧ r.2.2.stats.toDrops = n.stats.toDrops ∧
        r.2.2.stats.rxFifoFullCount = n.stats.rxFifoFullCount
    | some o => r.2.1 = o.letter ∧ r.2.2.stats.toDrops = n.stats.toDrops.count currState o ∧
        r.2.2.stats.rxFifoFullCount = n.stats.rxFifoFullCount + o.rxFifoFull.toNat := by
  unfold ethRxPkt at h
  unfold Nic.observation
  cases hen : n.rctlEn with
  | false =>
    rw [hen] at h
    cases h
    exact ⟨rfl, rfl, rfl⟩
  | true =>
    rw [hen] at h
    obtain ⟨⟨pushed, rxFifo⟩, hpush, h⟩ := bind_eq_ok.mp h
    simp only [updateDropFSM_eq] at h
    rw [hpush]
    cases pushed with
    | false =>
      cases h
      exact ⟨rfl, rfl, rfl⟩
    | true =>
      cases h
      exact ⟨rfl, rfl, rfl⟩

/-- A reception fails only where the FIFO does, and then nothing is observed. -/
theorem observation_eq_none {currState : DropState} {n : Nic} {pkt : EthPacketData} {e : FifoError}
    (h : ethRxPkt currState n pkt = .error e) : n.observation pkt = none := by
  unfold ethRxPkt at h
  unfold Nic.observation
  cases hen : n.rctlEn with
  | false => rfl
  | true =>
    rw [hen] at h
    rcases bind_eq_error.mp h with hpush | ⟨⟨pushed, rxFifo⟩, -, h⟩
    · rw [hpush]
      rfl
    · cases pushed <;> cases h

/-! ## Runs of several cards -/

/-- The cards of a system and the one `currState`.  What each card has observed so far, oldest
first, is kept beside them for the statements. -/
structure Cards (ι : Type) where
  currState : DropState
  nic : ι → Nic
  observed : ι → List Observation

/-- A card receives a packet, or whatever else it does changes what its next reception looks at. -/
inductive CardAction (ι : Type)
  | ethRxPkt (card : ι) (pkt : EthPacketData)
  | other (card : ι) (side : RxSide)

variable {ι : Type} [DecidableEq ι]

namespace Cards

/-- The start of a simulation: no statistics, no observations. -/
def start (side : ι → RxSide) : Cards ι where
  currState := .A
  nic i := { side i with stats := ⟨⟨0, 0, 0⟩, 0, 0, 0, 0⟩ }
  observed _ := []

def step (s : Cards ι) : CardAction ι → Except FifoError (Cards ι)
  | .ethRxPkt i pkt => do
      let (_, currState, nic) ← IGbE.ethRxPkt s.currState (s.nic i) pkt
      return {
        currState := currState
        nic := Function.update s.nic i nic
        observed := Function.update s.observed i
          (s.observed i ++ ((s.nic i).observation pkt).toList) }
  | .other i side => .ok
      { s with nic := Function.update s.nic i { side with stats := (s.nic i).stats } }

/-- The letter of the last of some observations. -/
def lastLetter (os : List Observation) : DropState := (os.getLast?.map (·.letter)).getD .A

/-- The machine of one card, moved by its own observations only. -/
def ownMachine (os : List Observation) : DropState × Drops :=
  os.foldl (fun m o => updateDropFSM m.1 o m.2) (.A, ⟨0, 0, 0⟩)

/-- The counters of a card follow from its own observations, and add up to its count of refused
packets. -/
def Counted (os : List Observation) (stats : EtherDeviceStats) : Prop :=
  stats.toDrops = (ownMachine os).2 ∧ stats.toDrops.total = stats.rxFifoFullCount

def PerDevice (s : Cards ι) : Prop := ∀ i, Counted (s.observed i) (s.nic i).stats

/-- A card that receives a packet finds the shared state in the class of its own last observation,
as far as this packet makes a difference between them. -/
def Undisturbed (s : Cards ι) : CardAction ι → Prop
  | .ethRxPkt i pkt =>
      ∀ o ∈ (s.nic i).observation pkt, Alike (lastLetter (s.observed i)) s.currState o
  | .other _ _ => True

theorem ownMachine_snoc (os : List Observation) (o : Observation) :
    ownMachine (os ++ [o]) = (o.letter, (ownMachine os).2.count (ownMachine os).1 o) := by
  rw [ownMachine, List.foldl_append, List.foldl_cons, List.foldl_nil, updateDropFSM_eq]
  rfl

/-- The state of a card's own machine is the letter of its last observation. -/
theorem ownMachine_state (os : List Observation) : (ownMachine os).1 = lastLetter os := by
  induction os using List.reverseRecOn with
  | nil => rfl
  | append_singleton os o _ =>
    rw [ownMachine_snoc, lastLetter, List.getLast?_append, List.getLast?_singleton]
    rfl

/-- One reception, seen from the card: the counters still follow from the observations exactly when
the shared state was in the class of the card's own. -/
theorem counted_iff {currState : DropState} {n : Nic} {pkt : EthPacketData}
    {r : Bool × DropState × Nic} {os : List Observation} (h : Counted os n.stats)
    (hr : IGbE.ethRxPkt currState n pkt = .ok r) :
    Counted (os ++ (n.observation pkt).toList) r.2.2.stats ↔
      ∀ o ∈ n.observation pkt, Alike (lastLetter os) currState o := by
  have hspec := ethRxPkt_spec hr
  cases ho : n.observation pkt with
  | none =>
    rw [ho] at hspec
    obtain ⟨-, hdrops, hcount⟩ := hspec
    rw [Option.toList_none, List.append_nil, Counted, hdrops, hcount]
    exact ⟨fun _ _ hmem => absurd hmem (Option.not_mem_none _), fun _ => h⟩
  | some o =>
    rw [ho] at hspec
    obtain ⟨-, hdrops, hcount⟩ := hspec
    have htotal : r.2.2.stats.toDrops.total = r.2.2.stats.rxFifoFullCount := by
      rw [hdrops, hcount, Drops.count_total, h.2]
    rw [Option.toList_some, Counted, and_iff_left htotal, hdrops, ownMachine_snoc, h.1,
      count_eq_iff, ownMachine_state]
    simp

/-- **One step**: every card's counters still follow from its observations exactly when the card
that received was not disturbed. -/
theorem perDevice_step {s t : Cards ι} {a : CardAction ι} (hs : s.PerDevice)
    (h : s.step a = .ok t) : t.PerDevice ↔ s.Undisturbed a := by
  cases a with
  | ethRxPkt i pkt =>
    obtain ⟨r, hr, h⟩ := bind_eq_ok.mp h
    cases h
    have hown := counted_iff (hs i) hr
    refine Iff.trans ⟨fun ht => ?_, fun hi j => ?_⟩ hown
    · have hi := ht i
      dsimp only at hi
      rw [Function.update_self, Function.update_self] at hi
      exact hi
    · dsimp only
      by_cases hj : j = i
      · rw [hj, Function.update_self, Function.update_self]
        exact hi
      · rw [Function.update_of_ne hj, Function.update_of_ne hj]
        exact hs j
  | other i side =>
    cases h
    refine ⟨fun _ => trivial, fun _ j => ?_⟩
    dsimp only
    by_cases hj : j = i
    · rw [hj, Function.update_self]
      exact hs i
    · rw [Function.update_of_ne hj]
      exact hs j

/-- **The drops are classified per card exactly in undisturbed runs.**  For any cards and any run of
them, all counters follow from the cards' own observations and add up to the refused packets, at
every point of the run, if and only if every reception finds the shared state in the class of the
receiving card's last observation. -/
theorem per_device_iff (side : ι → RxSide) (as : List (CardAction ι)) :
    (∀ bs, bs <+: as → ∀ t, run step (start side) bs = .ok t → t.PerDevice) ↔
      Admitted Undisturbed step (start side) as := by
  refine always_iff_admitted (I := fun _ => True) (fun _ _ _ _ _ => trivial)
    (fun s a t _ hs h => perDevice_step hs h) (fun s a e h => ?_) trivial
    (fun i => ⟨rfl, rfl⟩) as
  cases a with
  | other i side => trivial
  | ethRxPkt i pkt =>
      rcases bind_eq_error.mp h with h | ⟨r, -, h⟩
      · intro o ho
        rw [observation_eq_none h] at ho
        cases ho
      · cases h

/-- Two cards, with room for one packet in the FIFO of the first: its second packet is a drop that
its own observations charge to the DMA. -/
def twoCards : Bool → RxSide
  | false => ⟨true, 5, false, 5, .new 2⟩
  | true => ⟨true, 0, false, 5, .new 2⟩

/-- The first card drops its second packet.  Without a packet of the other card the drop is the
DMA's, with one in between it is the core's. -/
theorem other_card_disturbs :
    (∃ t, run step (start twoCards)
        [.ethRxPkt false ⟨[1, 2]⟩, .ethRxPkt false ⟨[3, 4]⟩] = .ok t ∧
      (t.observed false = [⟨false, false, false⟩, ⟨true, false, false⟩] ∧
        (t.nic false).stats.toDrops = ⟨1, 0, 0⟩)) ∧
    (∃ t, run step (start twoCards)
        [.ethRxPkt false ⟨[1, 2]⟩, .ethRxPkt true ⟨[5, 6]⟩, .ethRxPkt false ⟨[3, 4]⟩] = .ok t ∧
      (t.observed false = [⟨false, false, false⟩, ⟨true, false, false⟩] ∧
        (t.nic false).stats.toDrops = ⟨0, 1, 0⟩)) := by
  constructor <;> decide +kernel

end Cards

end Gem5.IGbE
