/-
# What the snoop filter tracks

The snoop filter of a crossbar (`mem/snoop_filter.cc`) over whole runs: the ports are numbered by
`setCPUSidePorts` (`mem/snoop_filter.hh`), and requests, responses, snoops and snoop responses for
one line come in any order, as far as the caches' contract allows.

Beside the filter a run keeps which ports have a copy of the line and which wait for a response.
The invariant says that the holders of the line's entry include the former and that its requesters
are the latter.
-/
import Gem5.SnoopFilter

open Runs

namespace Gem5.Mem.Snoop

/-! ## The ports of a crossbar -/

/-- The CPU-side ports of a crossbar, which are numbered in order. -/
def crossbarPorts (snooping : List Bool) : List ResponsePort :=
  snooping.mapIdx fun i isSnooping => ⟨some i, isSnooping⟩

/-- The loop of `setCPUSidePorts`. -/
def attachPorts : Params → ℕ → List ResponsePort → Except SnoopFail (Params × ℕ)
  | p, id, [] => .ok (p, id)
  | p, id, port :: ports =>
    if port.isSnooping then do
      let i ← orFail .invalidPortID port.getId
      require .portOutOfRange (decide (i < p.localResponsePortIds.length))
      attachPorts
        { p with
          cpuSidePorts := p.cpuSidePorts ++ [port]
          localResponsePortIds := p.localResponsePortIds.set i (some id) } (id + 1) ports
    else attachPorts p id ports

/-- `setCPUSidePorts(ports)` of a filter that has no ports yet. -/
def setCPUSidePorts (p : Params) (ports : List ResponsePort) : Except SnoopFail Params := do
  let p := { p with cpuSidePorts := [], localResponsePortIds := List.replicate ports.length none }
  let (p, id) ← attachPorts p 0 ports
  require .tooManyPorts (!decide (id > 256))
  return p

/-- What the filter knows about its ports. -/
structure Attached (p : Params) (ports : List ResponsePort) : Prop where
  mem_iff : ∀ port, port ∈ p.cpuSidePorts ↔ port ∈ ports ∧ port.isSnooping = true
  nodup : p.cpuSidePorts.Nodup
  few : p.cpuSidePorts.length ≤ 256
  mask : ∀ (n : ℕ) (port : ResponsePort), p.cpuSidePorts[n]? = some port →
    p.portToMask port = .ok (1 <<< n)
  unmasked : ∀ port ∈ ports, port.isSnooping = false → p.portToMask port = .ok 0

theorem getId_crossbarPorts {snooping : List Bool} {i : ℕ} {port : ResponsePort}
    (h : (crossbarPorts snooping)[i]? = some port) : port.getId = some i := by
  rw [crossbarPorts, List.getElem?_mapIdx, Option.map_eq_some_iff] at h
  obtain ⟨b, -, rfl⟩ := h
  rfl

theorem nodup_crossbarPorts (snooping : List Bool) :
    ((crossbarPorts snooping).map ResponsePort.getId).Nodup := by
  refine List.nodup_iff_getElem?_ne_getElem?.mpr fun i j hij hj heq => ?_
  have hlen : j < (crossbarPorts snooping).length := by simpa using hj
  have hget : ∀ k (hk : k < (crossbarPorts snooping).length),
      ((crossbarPorts snooping).map ResponsePort.getId)[k]? = some (some k) := fun k hk => by
    rw [List.getElem?_map, List.getElem?_eq_getElem hk, Option.map_some,
      getId_crossbarPorts (List.getElem?_eq_getElem hk)]
  rw [hget i (hij.trans hlen), hget j hlen, Option.some_inj, Option.some_inj] at heq
  exact hij.ne heq

/-- What the loop of `setCPUSidePorts` has done with the ports `done`. -/
structure Attaching (p : Params) (id : ℕ) (done : List ResponsePort) : Prop where
  snooping : p.cpuSidePorts = done.filter (·.isSnooping)
  count : id = p.cpuSidePorts.length
  numbered : ∀ (n : ℕ) (port : ResponsePort), p.cpuSidePorts[n]? = some port →
    ∃ i, port.getId = some i ∧ p.localResponsePortIds[i]? = some (some n)

theorem attachPorts_attaching {ports done : List ResponsePort} {p p' : Params} {id id' : ℕ}
    (hnodup : ((done ++ ports).map ResponsePort.getId).Nodup) (h : Attaching p id done)
    (hok : attachPorts p id ports = .ok (p', id')) : Attaching p' id' (done ++ ports) := by
  induction ports generalizing p id done with
  | nil =>
    cases hok
    rwa [List.append_nil]
  | cons port ports ih =>
    rw [List.append_cons] at hnodup ⊢
    unfold attachPorts at hok
    cases hsnooping : port.isSnooping with
    | false =>
      rw [hsnooping, if_neg Bool.false_ne_true] at hok
      refine ih hnodup ⟨?_, h.count, h.numbered⟩ hok
      simp [h.snooping, hsnooping]
    | true =>
      rw [hsnooping, if_pos rfl] at hok
      obtain ⟨i, hi, hok⟩ := bind_eq_ok.mp hok
      obtain ⟨_, hlt, hok⟩ := bind_eq_ok.mp hok
      have hid := orFail_eq_ok.mp hi
      have hlen := of_decide_eq_true (require_eq_ok.mp hlt)
      refine ih hnodup ⟨by simp [h.snooping, hsnooping], by simp [h.count], fun n q hq => ?_⟩ hok
      rw [List.getElem?_append] at hq
      split_ifs at hq with hold
      · -- an earlier port has another number
        obtain ⟨j, hj, hnum⟩ := h.numbered n q hq
        have hmem : q ∈ done := List.mem_of_mem_filter (h.snooping ▸ List.mem_of_getElem? hq)
        have hne : i ≠ j := by
          rintro rfl
          rw [List.map_append, List.map_append, List.append_assoc] at hnodup
          refine (List.disjoint_of_nodup_append hnodup) (List.mem_map_of_mem hmem) ?_
          simp [hj, hid]
        exact ⟨j, hj, by rwa [List.getElem?_set_ne hne]⟩
      · obtain ⟨rfl, rfl⟩ : n = p.cpuSidePorts.length ∧ q = port := by
          rw [List.getElem?_singleton] at hq
          split_ifs at hq with hn
          exact ⟨by omega, (Option.some.inj hq).symm⟩
        exact ⟨i, hid, by rw [List.getElem?_set_self hlen, h.count]⟩

/-- **The ports of a crossbar get one bit each.** -/
theorem setCPUSidePorts_attached {p p' : Params} {snooping : List Bool}
    (h : setCPUSidePorts p (crossbarPorts snooping) = .ok p') :
    Attached p' (crossbarPorts snooping) := by
  obtain ⟨⟨q, id⟩, hloop, h⟩ := bind_eq_ok.mp h
  obtain ⟨_, hfew, h⟩ := bind_eq_ok.mp h
  cases h
  have hnodup := nodup_crossbarPorts snooping
  have hstart : Attaching
      { p with
        cpuSidePorts := []
        localResponsePortIds := List.replicate (crossbarPorts snooping).length none } 0 [] :=
    ⟨rfl, rfl, fun n port hn => by cases hn⟩
  have hdone : Attaching p' id (crossbarPorts snooping) :=
    attachPorts_attaching hnodup hstart hloop
  have hid : ∀ port ∈ crossbarPorts snooping, ∃ i, port.getId = some i := fun port hport => by
    obtain ⟨i, hi⟩ := List.getElem?_of_mem hport
    exact ⟨i, getId_crossbarPorts hi⟩
  refine ⟨fun port => ?_, ?_, ?_, fun n port hn => ?_, fun port hport hno => ?_⟩
  · rw [hdone.snooping, List.mem_filter]
  · rw [hdone.snooping]
    exact (List.Nodup.of_map _ hnodup).filter _
  · have hle := require_eq_ok.mp hfew
    rw [← hdone.count]
    simpa using hle
  · obtain ⟨i, hi, hnum⟩ := hdone.numbered n port hn
    have hsnoop : port.isSnooping = true :=
      (List.mem_filter.mp (hdone.snooping ▸ List.mem_of_getElem? hn)).2
    refine bind_eq_ok.mpr ⟨i, orFail_eq_ok.mpr hi, ?_⟩
    simp only [hsnoop, Bool.not_true, Bool.false_eq_true, if_false]
    exact bind_eq_ok.mpr ⟨some n, orFail_eq_ok.mpr hnum, rfl⟩
  · obtain ⟨i, hi⟩ := hid port hport
    simp [Params.portToMask, hi, hno, orFail]

/-! ## The bits of the ports -/

/-- The bit of a port is set in a mask. -/
def Marked (p : Params) (mask : SnoopMask) (port : ResponsePort) : Prop :=
  ∃ n : ℕ, p.cpuSidePorts[n]? = some port ∧ mask.getLsbD n = true

/-- A filter whose predicate does not fail is a filter. -/
theorem filterM_ok {ε α : Type} {f : α → Except ε Bool} {g : α → Bool} {l : List α}
    (h : ∀ a ∈ l, f a = .ok (g a)) : l.filterM f = .ok (l.filter g) := by
  have haux : ∀ acc, List.filterAuxM f l acc = .ok ((l.filter g).reverse ++ acc) := by
    induction l with
    | nil => exact fun acc => rfl
    | cons a l ih =>
      intro acc
      rw [List.filterAuxM, h a List.mem_cons_self]
      have htail := ih (fun b hb => h b (List.mem_cons_of_mem a hb)) (cond (g a) (a :: acc) acc)
      refine htail.trans (congrArg Except.ok ?_)
      cases hg : g a <;> simp [hg]
  exact bind_eq_ok.mpr ⟨_, haux [], by simp; rfl⟩

section Masks

variable {p : Params} {ports : List ResponsePort} {a b m : SnoopMask} {port other : ResponsePort}

theorem marked_or : Marked p (a ||| b) port ↔ Marked p a port ∨ Marked p b port := by
  simp only [Marked, BitVec.getLsbD_or, Bool.or_eq_true, and_or_left, exists_or]

theorem Marked.mem (h : Marked p a port) : port ∈ p.cpuSidePorts := by
  obtain ⟨n, hn, -⟩ := h
  exact List.mem_of_getElem? hn

theorem not_marked_zero : ¬ Marked p 0 port := by
  rintro ⟨n, -, h⟩
  simp at h

theorem Attached.marked_iff (hp : Attached p ports) {n : ℕ} (hn : p.cpuSidePorts[n]? = some port) :
    Marked p a port ↔ a.getLsbD n = true := by
  refine ⟨fun ⟨k, hk, ha⟩ => ?_, fun ha => ⟨n, hn, ha⟩⟩
  have hlt : n < p.cpuSidePorts.length := (List.getElem?_eq_some_iff.mp hn).1
  rwa [List.getElem?_inj hlt hp.nodup |>.mp (hn.trans hk.symm)]

/-- The mask of a snooping port is its bit. -/
theorem Attached.exists_bit (hp : Attached p ports) (hport : port ∈ p.cpuSidePorts) :
    ∃ n < 256, p.cpuSidePorts[n]? = some port ∧ p.portToMask port = .ok (BitVec.twoPow 256 n) := by
  obtain ⟨n, hn⟩ := List.getElem?_of_mem hport
  have hlt : n < p.cpuSidePorts.length := (List.getElem?_eq_some_iff.mp hn).1
  exact ⟨n, hlt.trans_le hp.few, hn, (hp.mask n port hn).trans (by rw [BitVec.twoPow_eq]; rfl)⟩

theorem Attached.marked_mask (hp : Attached p ports) (hport : port ∈ p.cpuSidePorts)
    (hm : p.portToMask port = .ok m) : Marked p m other ↔ other = port := by
  obtain ⟨n, hlt, hn, hmask⟩ := hp.exists_bit hport
  cases hmask.symm.trans hm
  constructor
  · rintro ⟨k, hk, hbit⟩
    rw [BitVec.getLsbD_twoPow] at hbit
    obtain ⟨-, rfl⟩ : n < 256 ∧ n = k := by simpa using hbit
    exact Option.some.inj (hk.symm.trans hn)
  · rintro rfl
    exact ⟨n, hn, by simp [hlt]⟩

theorem Attached.and_mask_ne_zero (hp : Attached p ports) (hport : port ∈ p.cpuSidePorts)
    (hm : p.portToMask port = .ok m) : a &&& m ≠ 0 ↔ Marked p a port := by
  obtain ⟨n, hlt, hn, hmask⟩ := hp.exists_bit hport
  cases hmask.symm.trans hm
  rw [hp.marked_iff hn, BitVec.and_twoPow]
  cases a.getLsbD n with
  | false => simp
  | true =>
    refine iff_of_true (fun hzero => ?_) rfl
    have hbit := congrArg (·.getLsbD n) hzero
    simp [hlt] at hbit

theorem Attached.marked_andNot (hp : Attached p ports) (hport : port ∈ p.cpuSidePorts)
    (hm : p.portToMask port = .ok m) :
    Marked p (a &&& ~~~m) other ↔ Marked p a other ∧ other ≠ port := by
  constructor
  · rintro ⟨k, hk, hbit⟩
    rw [BitVec.getLsbD_and, BitVec.getLsbD_not, Bool.and_eq_true, Bool.and_eq_true] at hbit
    refine ⟨⟨k, hk, hbit.1⟩, fun heq => ?_⟩
    have hset := (hp.marked_iff hk).mp ((hp.marked_mask hport hm).mpr heq)
    simp [hset] at hbit
  · rintro ⟨⟨k, hk, ha⟩, hne⟩
    have hlt : k < 256 := (List.getElem?_eq_some_iff.mp hk).1.trans_le hp.few
    have hclear : m.getLsbD k = false := by
      rw [← Bool.not_eq_true, ← hp.marked_iff hk, hp.marked_mask hport hm]
      exact hne
    refine ⟨k, hk, ?_⟩
    rw [BitVec.getLsbD_and, BitVec.getLsbD_not, ha, hclear]
    simp [hlt]

/-- The list of a mask holds the ports whose bits are set. -/
theorem Attached.maskToPortList (hp : Attached p ports) (a : SnoopMask) :
    ∃ list, p.maskToPortList a = .ok list ∧ ∀ port, port ∈ list ↔ Marked p a port := by
  classical
  refine ⟨p.cpuSidePorts.filter fun port => decide (Marked p a port),
    filterM_ok fun port hport => ?_, fun port => ?_⟩
  · obtain ⟨n, -, -, hmask⟩ := hp.exists_bit hport
    have hiff := hp.and_mask_ne_zero (a := a) hport hmask
    exact bind_eq_ok.mpr ⟨_, hmask, congrArg Except.ok (decide_eq_decide.mpr hiff)⟩
  · rw [List.mem_filter, decide_eq_true_eq, and_iff_right_iff_imp]
    rintro ⟨n, hn, -⟩
    exact List.mem_of_getElem? hn

end Masks

/-! ## The contract of the caches -/

/-- What a crossbar does with the filter. -/
inductive Action where
  /-- `lookupRequest`, and `finishRequest` -/
  | request (port : ResponsePort) (cpkt : Packet) (will_retry : Bool)
  /-- `updateResponse` -/
  | response (port : ResponsePort) (cpkt : Packet)
  /-- `lookupSnoop` -/
  | snoop (cpkt : Packet)
  /-- `updateSnoopResponse` -/
  | snoopResponse (cpkt : Packet) (rsp_port req_port : ResponsePort)
  /-- `updateSnoopForward` -/
  | snoopForward (cpkt : Packet)

/-- An action, with the ports to which a snoop is sent. -/
def act (p : Params) (s : SnoopFilter) :
    Action → Except SnoopFail (SnoopFilter × List ResponsePort)
  | .request port cpkt will_retry => do
    let (s, sent) ← lookupRequest p s cpkt port
    let s ← finishRequest p s will_retry cpkt.getAddr cpkt.isSecure
    return (s, sent)
  | .response port cpkt => do
    let s ← updateResponse p s cpkt port
    return (s, [])
  | .snoop cpkt => lookupSnoop p s cpkt
  | .snoopResponse cpkt rsp_port req_port => do
    let s ← updateSnoopResponse p s cpkt rsp_port req_port
    return (s, [])
  | .snoopForward cpkt => do
    let s ← updateSnoopForward p s cpkt
    return (s, [])

/-- The filter, and for one line the ports that have a copy, in the cache or in a snoop response on
its way, and those that wait for a response. -/
structure World where
  filter : SnoopFilter
  copies : Set ResponsePort
  outstanding : Set ResponsePort

/-- The response to the request comes to the port, and brings a copy or the word that the line has
been cleaned. -/
def Packet.awaited (cpkt : Packet) (port : ResponsePort) : Bool :=
  port.isSnooping && !cpkt.isUncacheable && cpkt.needsResponse && !cpkt.cacheResponding

/-- The contract: a port has at most one outstanding request, gets a response only to that, evicts
only a line it has, and answers a snoop only with a line it has. -/
def Allowed (p : Params) (ports : List ResponsePort) (line : Addr) (w : World) : Action → Prop
  | .request port cpkt _ =>
    port ∈ ports ∧ p.lineOf cpkt = line ∧
      (cpkt.awaited port = true → port ∉ w.outstanding) ∧
      (port.isSnooping = true → cpkt.isEviction = true → port ∈ w.copies)
  | .response port cpkt =>
    port ∈ ports ∧ p.lineOf cpkt = line ∧
      (port.isSnooping = true → cpkt.isUncacheable = false → port ∈ w.outstanding)
  | .snoop cpkt => p.lineOf cpkt = line
  | .snoopResponse cpkt rsp_port req_port =>
    rsp_port ∈ ports ∧ req_port ∈ ports ∧ p.lineOf cpkt = line ∧
      (req_port.isSnooping = true → cpkt.isUncacheable = false →
        rsp_port.isSnooping = true ∧ rsp_port ∈ w.copies ∧ req_port ∈ w.outstanding)
  | .snoopForward cpkt => p.lineOf cpkt = line

/-- The ports that may have a copy after an action that has snooped `sent`. -/
def copiesAfter (copies : Set ResponsePort) (sent : List ResponsePort) : Action → Set ResponsePort
  | .request port cpkt will_retry =>
    if !will_retry && cpkt.isEviction && !cpkt.isBlockCached then copies \ {port} else copies
  | .response port cpkt =>
    if cpkt.isUncacheable || !port.isSnooping then copies
    else if cpkt.isCacheMaintenance then
      if cpkt.isInvalidate then copies \ {port} else copies
    else insert port copies
  | .snoop cpkt => if cpkt.isInvalidate then {port ∈ copies | port ∉ sent} else copies
  | .snoopResponse cpkt _ req_port =>
    if cpkt.isUncacheable || !req_port.isSnooping then copies
    else if cpkt.hasSharers then insert req_port copies else {req_port}
  | .snoopForward cpkt => if cpkt.hasSharers then copies else ∅

/-- The ports that wait for a response after an action. -/
def outstandingAfter (outstanding : Set ResponsePort) : Action → Set ResponsePort
  | .request port cpkt will_retry =>
    if !will_retry && cpkt.awaited port then insert port outstanding else outstanding
  | .response port cpkt =>
    if cpkt.isUncacheable || !port.isSnooping then outstanding else outstanding \ {port}
  | .snoop _ => outstanding
  | .snoopResponse cpkt _ req_port =>
    if cpkt.isUncacheable || !req_port.isSnooping then outstanding else outstanding \ {req_port}
  | .snoopForward _ => outstanding

/-- Requests whose response is awaited come from a cache. -/
def FromCache : Action → Prop
  | .request port cpkt _ => cpkt.awaited port = true → cpkt.fromCache = true
  | _ => True

/-- **The runs**: actions in any order that the contract allows and that meet a condition.  A port
may drop its copy at any time. -/
inductive Reached (p : Params) (ports : List ResponsePort) (line : Addr) (cond : Action → Prop) :
    World → Prop
  | initial : Reached p ports line cond ⟨{}, ∅, ∅⟩
  | step {w : World} {a : Action} {s : SnoopFilter} {sent : List ResponsePort}
      {copies : Set ResponsePort} (hreached : Reached p ports line cond w)
      (hallowed : Allowed p ports line w a) (hcond : cond a)
      (hact : act p w.filter a = .ok (s, sent))
      (hcopies : copies ⊆ copiesAfter w.copies sent a) :
      Reached p ports line cond ⟨s, copies, outstandingAfter w.outstanding a⟩

/-- The panics: a double request, a requester that is not a holder, a missing request, and a port
that does not have the line. -/
def IsPanic (e : SnoopFail) : Prop :=
  e = .doubleRequest ∨ e = .requesterNotHolder ∨ e = .missingRequest ∨ e = .doesNotHaveLine

/-! ## The operations on the entry of the line -/

/-- The entry of a line, an empty one if it is not tracked. -/
def entry (cachedLocations : SnoopFilterCache) (line : Addr) : SnoopItem :=
  (cachedLocations.lookup line).getD {}

section Entry

variable {m : SnoopFilterCache} {line : Addr} {sf_item : SnoopItem}

theorem entry_of_lookup (h : m.lookup line = some sf_item) : entry m line = sf_item := by
  rw [entry, h, Option.getD_some]

@[simp] theorem entry_insert : entry (m.insert line sf_item) line = sf_item :=
  entry_of_lookup (Finmap.lookup_insert m)

/-- A null entry that is left out is read as the null entry. -/
@[simp] theorem entry_settle : entry (settle m line sf_item) line = sf_item := by
  unfold settle
  split_ifs with hnull
  · obtain ⟨hrequested, hholder⟩ := BitVec.or_eq_zero_iff.mp hnull
    obtain ⟨requested, holder⟩ := sf_item
    obtain rfl : requested = 0 := hrequested
    obtain rfl : holder = 0 := hholder
    rw [entry, Finmap.lookup_erase, Option.getD_none]
  · exact entry_insert

end Entry

section Specs

variable {p : Params} {ports : List ResponsePort} {s : SnoopFilter} {cpkt : Packet}
  {port : ResponsePort} {m : SnoopMask} {item : SnoopItem}

/-- An error that is none of the panics. -/
def Other (e : SnoopFail) : Prop := ¬ IsPanic e

/-- An assertion that is none of the panics. -/
theorem require_holds {e : SnoopFail} {b : Bool} (hb : b = true) :
    Ends (fun _ => True) Other (require e b) := by
  rw [require_ok hb]
  trivial

/-- Whether the filter tracks the request of the port. -/
def Packet.allocates (cpkt : Packet) (port : ResponsePort) : Bool :=
  !cpkt.isUncacheable && port.isSnooping && cpkt.fromCache

/-- **What a request does to the entry.** -/
structure Requests (p : Params) (cpkt : Packet) (port : ResponsePort) (item item' : SnoopItem) :
    Prop where
  requested : ∀ other, Marked p item'.requested other ↔ Marked p item.requested other ∨
    ((cpkt.allocates port && cpkt.needsResponse && !cpkt.cacheResponding) = true ∧ other = port)
  holder : ∀ other, Marked p item.holder other →
    (cpkt.isEviction && !cpkt.isBlockCached) = false ∨ other ≠ port → Marked p item'.holder other

theorem Attached.mem_cpuSidePorts (hp : Attached p ports) (hport : port ∈ ports)
    (hsnooping : port.isSnooping = true) : port ∈ p.cpuSidePorts :=
  (hp.mem_iff port).mpr ⟨hport, hsnooping⟩

theorem Attached.portToMask_ok (hp : Attached p ports) (hport : port ∈ ports) :
    ∃ m, p.portToMask port = .ok m := by
  cases hsnooping : port.isSnooping with
  | false => exact ⟨0, hp.unmasked port hport hsnooping⟩
  | true =>
    obtain ⟨n, -, -, hmask⟩ := hp.exists_bit (hp.mem_cpuSidePorts hport hsnooping)
    exact ⟨_, hmask⟩

theorem trackRequest_ends (hp : Attached p ports) (hport : port ∈ ports)
    (hm : p.portToMask port = .ok m)
    (hfree : (cpkt.allocates port && cpkt.needsResponse && !cpkt.cacheResponding) = true →
      ¬ Marked p item.requested port)
    (hholds : (cpkt.allocates port && cpkt.isEviction) = true → Marked p item.holder port) :
    Ends (Requests p cpkt port item) Other
      (trackRequest (cpkt.allocates port) cpkt m item) := by
  unfold trackRequest
  cases hallocates : cpkt.allocates port with
  | false => exact ⟨fun other => by simp [hallocates], fun other h _ => h⟩
  | true =>
    have hin : port ∈ p.cpuSidePorts := by
      refine hp.mem_cpuSidePorts hport ?_
      simp only [Packet.allocates, Bool.and_eq_true] at hallocates
      exact hallocates.1.2
    rw [hallocates] at hfree hholds
    simp only [Bool.not_true, Bool.false_eq_true, if_false]
    cases hneeds : cpkt.needsResponse with
    | true =>
      cases hresponding : cpkt.cacheResponding with
      | false =>
        rw [hneeds, hresponding] at hfree
        have hzero : item.requested &&& m = 0 :=
          not_not.mp (mt (hp.and_mask_ne_zero hin hm).mp (hfree rfl))
        refine (require_holds (decide_eq_true hzero)).bind fun _ _ => ?_
        refine ⟨fun other => ?_, fun other h _ => h⟩
        rw [hallocates, hneeds, hresponding, marked_or, hp.marked_mask hin hm]
        simp
      | true =>
        refine (ends_require (by simp [Other, IsPanic])).bind fun _ _ => ?_
        exact ⟨fun other => by simp [hresponding], fun other h _ => h⟩
    | false =>
      refine (ends_require (by simp [Other, IsPanic])).bind fun _ heviction => ?_
      have hmarked := hholds (by simpa using heviction)
      have hnonzero := (hp.and_mask_ne_zero hin hm).mpr hmarked
      have hholder : (!(decide (item.holder &&& m = 0) && !cpkt.isBlockIO)) = true := by
        rw [decide_eq_false hnonzero]
        rfl
      refine (require_holds hholder).bind fun _ _ => ?_
      cases hcached : cpkt.isBlockCached with
      | false =>
        refine ⟨fun other => by simp [hneeds], fun other h hne => ?_⟩
        refine (hp.marked_andNot hin hm).mpr ⟨h, hne.resolve_left ?_⟩
        simp [heviction, hcached]
      | true => exact ⟨fun other => by simp [hneeds], fun other h _ => h⟩

theorem lookupRequest_eq (p : Params) (s : SnoopFilter) (cpkt : Packet) (port : ResponsePort) :
    lookupRequest p s cpkt port = (do
      let m ← p.portToMask port
      if (s.cachedLocations.lookup (p.lineOf cpkt)).isNone && !cpkt.allocates port then
        return ({ s with reqLookupResult := { s.reqLookupResult with it := none } }, [])
      else
        let item := entry s.cachedLocations (p.lineOf cpkt)
        let item' ← trackRequest (cpkt.allocates port) cpkt m item
        let sent ← p.maskToPortList
          (((item.holder ||| item.requested ||| p.destMask cpkt) &&& ~~~m) ||| p.destMask cpkt)
        return (⟨s.cachedLocations.insert (p.lineOf cpkt) item', some (p.lineOf cpkt), item⟩,
          sent)) :=
  rfl

/-- A port that is in the entry, and not the requester, is sent the snoop. -/
theorem Attached.marked_interested (hp : Attached p ports) (hport : port ∈ ports)
    (hm : p.portToMask port = .ok m) {other : ResponsePort} (hne : other ≠ port) {a d : SnoopMask}
    (h : Marked p a other) : Marked p (((a ||| d) &&& ~~~m) ||| d) other := by
  refine marked_or.mpr (.inl ?_)
  cases hsnooping : port.isSnooping with
  | false =>
    cases (hp.unmasked port hport hsnooping).symm.trans hm
    have hall : ~~~(0 : SnoopMask) = BitVec.allOnes 256 := by decide
    rw [hall, BitVec.and_allOnes]
    exact marked_or.mpr (.inl h)
  | true =>
    have hin := hp.mem_cpuSidePorts hport hsnooping
    exact (hp.marked_andNot hin hm).mpr ⟨marked_or.mpr (.inl h), hne⟩

/-- The lookup notes the entry of the line and changes only that; all other ports in the entry are
sent the snoop. -/
theorem lookupRequest_ends (hp : Attached p ports) (hport : port ∈ ports)
    (hitem : item = entry s.cachedLocations (p.lineOf cpkt))
    (hfree : (cpkt.allocates port && cpkt.needsResponse && !cpkt.cacheResponding) = true →
      ¬ Marked p item.requested port)
    (hholds : (cpkt.allocates port && cpkt.isEviction) = true → Marked p item.holder port) :
    Ends (fun r => (∀ other ≠ port, Marked p (item.holder ||| item.requested) other → other ∈ r.2) ∧
        ((r.1.reqLookupResult.it = none ∧ r.1.cachedLocations = s.cachedLocations ∧
            cpkt.allocates port = false) ∨
          ∃ item', Requests p cpkt port item item' ∧
            r.1 = ⟨s.cachedLocations.insert (p.lineOf cpkt) item', some (p.lineOf cpkt), item⟩))
      Other (lookupRequest p s cpkt port) := by
  obtain ⟨m, hm⟩ := hp.portToMask_ok hport
  rw [lookupRequest_eq, hm, ← hitem]
  have hmask : Ends (fun m' => m' = m) Other (Except.ok m) := rfl
  refine hmask.bind fun m' heq => ?_
  subst heq
  split_ifs with hskip
  · obtain ⟨hnone, hno⟩ := Bool.and_eq_true_iff.mp hskip
    have hempty : item = {} := by
      rw [hitem, entry, Option.isNone_iff_eq_none.mp hnone, Option.getD_none]
    refine ⟨fun other _ hmarked => ?_, .inl ⟨rfl, rfl, by simpa using hno⟩⟩
    rw [hempty] at hmarked
    exact absurd hmarked not_marked_zero
  · refine (trackRequest_ends hp hport hm hfree hholds).bind fun item' hitem' => ?_
    obtain ⟨sent, hsent, hmem⟩ := hp.maskToPortList
      (((item.holder ||| item.requested ||| p.destMask cpkt) &&& ~~~m') ||| p.destMask cpkt)
    rw [hsent]
    refine ⟨fun other hne hmarked => ?_, .inr ⟨item', hitem', rfl⟩⟩
    exact (hmem other).mpr (hp.marked_interested hport hm hne hmarked)

/-- **A request**, and what is left of it if it has to be retried. -/
theorem request_ends (hp : Attached p ports) (hport : port ∈ ports)
    (hitem : item = entry s.cachedLocations (p.lineOf cpkt))
    (hfree : (cpkt.allocates port && cpkt.needsResponse && !cpkt.cacheResponding) = true →
      ¬ Marked p item.requested port)
    (hholds : (cpkt.allocates port && cpkt.isEviction) = true → Marked p item.holder port)
    (will_retry : Bool) :
    Ends (fun r => entry r.1.cachedLocations (p.lineOf cpkt) = item ∧
          (will_retry = true ∨ cpkt.allocates port = false) ∨
        will_retry = false ∧
          Requests p cpkt port item (entry r.1.cachedLocations (p.lineOf cpkt)))
      Other (act p s (.request port cpkt will_retry)) := by
  refine (lookupRequest_ends hp hport hitem hfree hholds).bind fun r hr => ?_
  obtain ⟨s', sent⟩ := r
  obtain ⟨-, ⟨hit, hsame, hno⟩ | ⟨item', hitem', rfl⟩⟩ := hr
  · have hfinish := finishRequest_none (p := p) hit will_retry cpkt.getAddr cpkt.isSecure
    dsimp only
    rw [hfinish]
    exact .inl ⟨hitem ▸ congrArg (entry · (p.lineOf cpkt)) hsame, .inr hno⟩
  · have hfinish := finishRequest_noted p s.cachedLocations item item' will_retry cpkt.getAddr
      cpkt.isSecure
    dsimp only
    rw [Params.lineOf, hfinish]
    cases will_retry with
    | true => exact .inl ⟨entry_settle, .inl rfl⟩
    | false =>
      refine .inr ⟨rfl, ?_⟩
      rw [entry_settle]
      exact hitem'

/-- **What a response does to the entry**: the request of the port goes, and the port holds the line
if the response brings data. -/
structure Responds (p : Params) (cpkt : Packet) (port : ResponsePort) (item item' : SnoopItem) :
    Prop where
  requested : ∀ other, Marked p item'.requested other ↔ Marked p item.requested other ∧ other ≠ port
  holder : ∀ other, Marked p item.holder other →
    (cpkt.isCacheMaintenance && cpkt.isInvalidate) = false ∨ other ≠ port →
      Marked p item'.holder other
  copy : cpkt.isCacheMaintenance = false → Marked p item'.holder port

theorem mask_ends (hm : p.portToMask port = .ok m) :
    Ends (fun m' => m' = m) Other (p.portToMask port) := by
  rw [hm]
  rfl

theorem updateResponse_ends (hp : Attached p ports) (hport : port ∈ ports)
    (hitem : item = entry s.cachedLocations (p.lineOf cpkt))
    (hrequested : port.isSnooping = true → cpkt.isUncacheable = false →
      Marked p item.requested port) :
    Ends (fun s' => ((cpkt.isUncacheable || !port.isSnooping) = true ∧
          entry s'.cachedLocations (p.lineOf cpkt) = item) ∨
        ((cpkt.isUncacheable || !port.isSnooping) = false ∧
          Responds p cpkt port item (entry s'.cachedLocations (p.lineOf cpkt))))
      Other (updateResponse p s cpkt port) := by
  unfold updateResponse
  refine (ends_require (by simp [Other, IsPanic])).bind fun _ _ => ?_
  cases hskip : cpkt.isUncacheable || !port.isSnooping with
  | true =>
    rw [if_pos rfl]
    exact .inl ⟨rfl, hitem.symm⟩
  | false =>
    rw [if_neg Bool.false_ne_true]
    obtain ⟨huncacheable, hsnooping⟩ : cpkt.isUncacheable = false ∧ port.isSnooping = true := by
      simpa using hskip
    have hin := hp.mem_cpuSidePorts hport hsnooping
    obtain ⟨m, hm⟩ := hp.portToMask_ok hport
    have hmarked := hrequested hsnooping huncacheable
    cases hhit : s.cachedLocations.lookup (p.lineOf cpkt) with
    | none =>
      rw [hitem, entry, hhit] at hmarked
      exact absurd hmarked not_marked_zero
    | some sf_item =>
      obtain rfl : item = sf_item := hitem.trans (entry_of_lookup hhit)
      have hnonzero := (hp.and_mask_ne_zero hin hm).mpr hmarked
      dsimp only
      rw [hhit]
      refine (mask_ends hm).bind fun m' heq => ?_
      subst heq
      refine (require_holds (decide_eq_true hnonzero)).bind fun _ _ => ?_
      have hclear : ∀ other, Marked p (item.requested &&& ~~~m') other ↔
          Marked p item.requested other ∧ other ≠ port := fun other => hp.marked_andNot hin hm
      refine Ends.mono ?_ fun s' => .inr ∘ .intro rfl
      cases hmaintenance : cpkt.isCacheMaintenance with
      | true =>
        rw [if_pos rfl, eraseIfNullEntry_insert]
        dsimp only [Ends, bind, Except.bind, pure, Except.pure]
        rw [entry_settle]
        cases hinvalidate : cpkt.isInvalidate with
        | true =>
          refine ⟨hclear, fun other h hne => ?_, fun hno => by simp [hmaintenance] at hno⟩
          refine (hp.marked_andNot hin hm).mpr ⟨h, hne.resolve_left ?_⟩
          simp [hmaintenance, hinvalidate]
        | false => exact ⟨hclear, fun other h _ => h, fun hno => by simp [hmaintenance] at hno⟩
      | false =>
        rw [if_neg Bool.false_ne_true]
        refine (ends_require (by simp [Other, IsPanic])).bind fun _ _ => ?_
        dsimp only [Ends, pure, Except.pure]
        rw [entry_insert]
        refine ⟨hclear, fun other h _ => marked_or.mpr (.inl h), fun _ => ?_⟩
        exact marked_or.mpr (.inr ((hp.marked_mask hin hm).mpr rfl))

/-- **A snoop** is sent to all ports in the entry, and clears at most the holders. -/
theorem lookupSnoop_ends (hp : Attached p ports)
    (hitem : item = entry s.cachedLocations (p.lineOf cpkt)) :
    Ends (fun r => (∀ port, Marked p (item.holder ||| item.requested) port → port ∈ r.2) ∧
        (entry r.1.cachedLocations (p.lineOf cpkt)).requested = item.requested ∧
        (cpkt.isInvalidate = false →
          (entry r.1.cachedLocations (p.lineOf cpkt)).holder = item.holder))
      Other (lookupSnoop p s cpkt) := by
  unfold lookupSnoop
  refine (ends_require (by simp [Other, IsPanic])).bind fun _ _ => ?_
  dsimp only
  cases hhit : s.cachedLocations.lookup (p.lineOf cpkt) with
  | none =>
    have hempty : item = {} := by rw [hitem, entry, hhit, Option.getD_none]
    refine (ends_require (by simp [Other, IsPanic])).bind fun _ _ => ?_
    refine ⟨fun port hmarked => ?_, congrArg _ hitem.symm, fun _ => congrArg _ hitem.symm⟩
    rw [hempty] at hmarked
    exact absurd hmarked not_marked_zero
  | some sf_item =>
    obtain rfl : item = sf_item := hitem.trans (entry_of_lookup hhit)
    obtain ⟨sent, hsent, hmem⟩ := hp.maskToPortList (item.holder ||| item.requested)
    refine (ends_require (by simp [Other, IsPanic])).bind fun _ _ => ?_
    rw [hsent]
    split_ifs with hclear
    · rw [eraseIfNullEntry_insert]
      dsimp only [Ends, bind, Except.bind, pure, Except.pure]
      rw [entry_settle]
      refine ⟨fun port => (hmem port).mpr, rfl, fun hno => ?_⟩
      simp [hno] at hclear
    · exact ⟨fun port => (hmem port).mpr, congrArg _ hitem.symm, fun _ => congrArg _ hitem.symm⟩

/-- **A snoop response that becomes a response**: the request of its port goes, and the port holds
the line, alone if there are no sharers. -/
theorem updateSnoopResponse_ends (hp : Attached p ports) {rsp_port : ResponsePort}
    (hrsp : rsp_port ∈ ports) (hport : port ∈ ports)
    (hitem : item = entry s.cachedLocations (p.lineOf cpkt))
    (hholds : port.isSnooping = true → cpkt.isUncacheable = false → rsp_port.isSnooping = true ∧
      Marked p item.holder rsp_port ∧ Marked p item.requested port) :
    Ends (fun s' => ((cpkt.isUncacheable || !port.isSnooping) = true ∧
          entry s'.cachedLocations (p.lineOf cpkt) = item) ∨
        ((cpkt.isUncacheable || !port.isSnooping) = false ∧
          (∀ other, Marked p (entry s'.cachedLocations (p.lineOf cpkt)).requested other ↔
            Marked p item.requested other ∧ other ≠ port) ∧
          (∀ other, (cpkt.hasSharers = true ∧ Marked p item.holder other) ∨ other = port →
            Marked p (entry s'.cachedLocations (p.lineOf cpkt)).holder other)))
      Other (updateSnoopResponse p s cpkt rsp_port port) := by
  unfold updateSnoopResponse
  refine (ends_require (by simp [Other, IsPanic])).bind fun _ _ => ?_
  refine (ends_require (by simp [Other, IsPanic])).bind fun _ _ => ?_
  cases hskip : cpkt.isUncacheable || !port.isSnooping with
  | true =>
    rw [if_pos rfl]
    exact .inl ⟨rfl, hitem.symm⟩
  | false =>
    rw [if_neg Bool.false_ne_true]
    obtain ⟨huncacheable, hsnooping⟩ : cpkt.isUncacheable = false ∧ port.isSnooping = true := by
      simpa using hskip
    obtain ⟨hrspSnooping, hholder, hrequested⟩ := hholds hsnooping huncacheable
    have hin := hp.mem_cpuSidePorts hport hsnooping
    have hrspIn := hp.mem_cpuSidePorts hrsp hrspSnooping
    obtain ⟨m, hm⟩ := hp.portToMask_ok hport
    obtain ⟨rsp, hrspMask⟩ := hp.portToMask_ok hrsp
    have hhas := (hp.and_mask_ne_zero hrspIn hrspMask).mpr hholder
    have hasked := (hp.and_mask_ne_zero hin hm).mpr hrequested
    refine (mask_ends hrspMask).bind fun _ heq => ?_
    subst heq
    refine (mask_ends hm).bind fun _ heq => ?_
    subst heq
    rw [hitem] at hhas hasked
    refine (require_holds (decide_eq_true hhas)).bind fun _ _ => ?_
    refine (require_holds (decide_eq_true hasked)).bind fun _ _ => ?_
    refine (ends_require (by simp [Other, IsPanic])).bind fun _ _ => ?_
    refine (ends_require (by simp [Other, IsPanic])).bind fun _ _ => ?_
    refine .inr ⟨rfl, ?_⟩
    dsimp only
    rw [entry_insert, hitem]
    refine ⟨fun other => hp.marked_andNot hin hm, fun other h => marked_or.mpr ?_⟩
    rcases h with ⟨hsharers, h⟩ | rfl
    · refine .inl ?_
      rw [hsharers]
      exact h
    · exact .inr ((hp.marked_mask hin hm).mpr rfl)

/-- **A snoop response that goes on downwards** clears the holders unless there are sharers. -/
theorem updateSnoopForward_ends (hitem : item = entry s.cachedLocations (p.lineOf cpkt)) :
    Ends (fun s' => (entry s'.cachedLocations (p.lineOf cpkt)).requested = item.requested ∧
        (cpkt.hasSharers = true →
          (entry s'.cachedLocations (p.lineOf cpkt)).holder = item.holder))
      Other (updateSnoopForward p s cpkt) := by
  unfold updateSnoopForward
  refine (ends_require (by simp [Other, IsPanic])).bind fun _ _ => ?_
  refine (ends_require (by simp [Other, IsPanic])).bind fun _ _ => ?_
  dsimp only
  cases hhit : s.cachedLocations.lookup (p.lineOf cpkt) with
  | none => exact ⟨congrArg _ hitem.symm, fun _ => congrArg _ hitem.symm⟩
  | some sf_item =>
    obtain rfl : item = sf_item := hitem.trans (entry_of_lookup hhit)
    dsimp only
    split_ifs with hsharers
    · rw [eraseIfNullEntry_insert]
      dsimp only [Ends, bind, Except.bind, pure, Except.pure]
      rw [entry_settle]
      exact ⟨rfl, fun hyes => by simp [hyes] at hsharers⟩
    · exact ⟨congrArg _ hitem.symm, fun _ => congrArg _ hitem.symm⟩

end Specs

/-! ## The runs -/

/-- The ports that have a copy hold the line, and those that wait for a response have requested
it. -/
structure Inv (p : Params) (line : Addr) (w : World) : Prop where
  copies : ∀ port ∈ w.copies, Marked p (entry w.filter.cachedLocations line).holder port
  outstanding : ∀ port,
    port ∈ w.outstanding ↔ Marked p (entry w.filter.cachedLocations line).requested port

section Runs

variable {p : Params} {ports : List ResponsePort} {line : Addr} {w : World} {a : Action}

theorem Packet.allocates_eq {cpkt : Packet} {port : ResponsePort}
    (h : cpkt.awaited port = true → cpkt.fromCache = true) :
    (cpkt.allocates port && cpkt.needsResponse && !cpkt.cacheResponding) = cpkt.awaited port := by
  unfold Packet.allocates Packet.awaited at *
  cases hcache : cpkt.fromCache with
  | true => cases port.isSnooping <;> cases cpkt.isUncacheable <;> rfl
  | false =>
    rw [hcache] at h
    have hno := Bool.eq_false_iff.mpr fun hyes => Bool.false_ne_true (h hyes)
    rw [hno]
    simp

/-- **One action** that the contract allows, of requests from caches, ends in no panic and keeps the
invariant, whichever copies are dropped. -/
theorem Inv.step (hp : Attached p ports) (h : Inv p line w) (hallowed : Allowed p ports line w a)
    (hcache : FromCache a) :
    Ends (fun r => ∀ copies ⊆ copiesAfter w.copies r.2 a,
        Inv p line ⟨r.1, copies, outstandingAfter w.outstanding a⟩)
      Other (act p w.filter a) := by
  cases a with
  | request port cpkt will_retry =>
    obtain ⟨hport, rfl, hfree, hevicts⟩ := hallowed
    have hawaited := Packet.allocates_eq hcache
    refine (request_ends hp hport rfl (fun hyes => ?_) (fun hyes => ?_) will_retry).mono
      fun r hr copies hcopies => ?_
    · rw [hawaited] at hyes
      exact fun hmarked => hfree hyes ((h.outstanding port).mpr hmarked)
    · obtain ⟨hallocates, heviction⟩ := Bool.and_eq_true_iff.mp hyes
      simp only [Packet.allocates, Bool.and_eq_true] at hallocates
      exact h.copies port (hevicts hallocates.1.2 heviction)
    · have hkept : ∀ other ∈ copies, other ∈ w.copies ∧ (will_retry = false →
          (cpkt.isEviction && !cpkt.isBlockCached) = false ∨ other ≠ port) := by
        intro other hother
        have hbound := hcopies hother
        dsimp only [copiesAfter] at hbound
        split_ifs at hbound with hevicted
        · exact ⟨hbound.1, fun _ => .inr hbound.2⟩
        · refine ⟨hbound, fun hsent => .inl ?_⟩
          simpa [hsent] using hevicted
      rcases hr with ⟨hsame, hidle⟩ | ⟨hsent, hrequests⟩
      · have hno : (!will_retry && cpkt.awaited port) = false := by
          rcases hidle with hretry | hno
          · simp [hretry]
          · simp [← hawaited, hno]
        refine ⟨fun other hother => ?_, fun other => ?_⟩
        · rw [hsame]
          exact h.copies other (hkept other hother).1
        · dsimp only [outstandingAfter]
          rw [hno, if_neg Bool.false_ne_true, hsame]
          exact h.outstanding other
      · refine ⟨fun other hother => ?_, fun other => ?_⟩
        · obtain ⟨hbefore, hne⟩ := hkept other hother
          exact hrequests.holder other (h.copies other hbefore) (hne hsent)
        · dsimp only [outstandingAfter]
          rw [hrequests.requested, hawaited, ← h.outstanding, hsent]
          cases cpkt.awaited port with
          | false => simp
          | true => simp [or_comm]
  | response port cpkt =>
    obtain ⟨hport, rfl, houtstanding⟩ := hallowed
    have hrequested : port.isSnooping = true → cpkt.isUncacheable = false →
        Marked p (entry w.filter.cachedLocations (p.lineOf cpkt)).requested port :=
      fun hsnooping hun => (h.outstanding port).mp (houtstanding hsnooping hun)
    refine (updateResponse_ends hp hport rfl hrequested).bind fun s' hs' copies hcopies => ?_
    dsimp only [copiesAfter, outstandingAfter] at hcopies ⊢
    rcases hs' with ⟨hskip, hsame⟩ | ⟨hskip, hresponds⟩
    · rw [hskip, if_pos rfl] at hcopies ⊢
      refine ⟨fun other hother => ?_, fun other => ?_⟩
      · rw [hsame]
        exact h.copies other (hcopies hother)
      · rw [hsame]
        exact h.outstanding other
    · rw [hskip, if_neg Bool.false_ne_true] at hcopies ⊢
      refine ⟨fun other hother => ?_, fun other => ?_⟩
      · have hbound := hcopies hother
        split_ifs at hbound with hmaintenance hinvalidate
        · exact hresponds.holder other (h.copies other hbound.1) (.inr hbound.2)
        · exact hresponds.holder other (h.copies other hbound) (.inl (by simp [hinvalidate]))
        · rcases hbound with rfl | hbound
          · exact hresponds.copy (by simpa using hmaintenance)
          · exact hresponds.holder other (h.copies other hbound) (.inl (by simp [hmaintenance]))
      · rw [hresponds.requested, ← h.outstanding]
        rfl
  | snoop cpkt =>
    obtain rfl := hallowed
    refine (lookupSnoop_ends hp rfl).mono fun r ⟨hsent, hrequested, hholder⟩ copies hcopies => ?_
    refine ⟨fun other hother => ?_, fun other => ?_⟩
    · have hbound := hcopies hother
      dsimp only [copiesAfter] at hbound
      split_ifs at hbound with hinvalidate
      · -- every port that had a copy has been sent the snoop
        exact absurd (hsent other (marked_or.mpr (.inl (h.copies other hbound.1)))) hbound.2
      · rw [hholder (by simpa using hinvalidate)]
        exact h.copies other hbound
    · rw [hrequested]
      exact h.outstanding other
  | snoopResponse cpkt rsp_port req_port =>
    obtain ⟨hrsp, hreq, rfl, hholds⟩ := hallowed
    refine (updateSnoopResponse_ends hp hrsp hreq rfl fun hsnooping hun => ?_).bind
      fun s' hs' copies hcopies => ?_
    · obtain ⟨hsnoops, hcopy, hwaits⟩ := hholds hsnooping hun
      exact ⟨hsnoops, h.copies rsp_port hcopy, (h.outstanding req_port).mp hwaits⟩
    · dsimp only [copiesAfter, outstandingAfter] at hcopies ⊢
      rcases hs' with ⟨hskip, hsame⟩ | ⟨hskip, hrequested, hholder⟩
      · rw [hskip, if_pos rfl] at hcopies ⊢
        refine ⟨fun other hother => ?_, fun other => ?_⟩
        · rw [hsame]
          exact h.copies other (hcopies hother)
        · rw [hsame]
          exact h.outstanding other
      · rw [hskip, if_neg Bool.false_ne_true] at hcopies ⊢
        refine ⟨fun other hother => hholder other ?_, fun other => ?_⟩
        · have hbound := hcopies hother
          split_ifs at hbound with hsharers
          · exact hbound.symm.imp (fun hbound => ⟨hsharers, h.copies other hbound⟩) id
          · exact .inr hbound
        · rw [hrequested, ← h.outstanding]
          rfl
  | snoopForward cpkt =>
    obtain rfl := hallowed
    refine (updateSnoopForward_ends rfl).bind fun s' ⟨hrequested, hholder⟩ copies hcopies => ?_
    refine ⟨fun other hother => ?_, fun other => ?_⟩
    · have hbound := hcopies hother
      dsimp only [copiesAfter] at hbound
      split_ifs at hbound with hsharers
      · rw [hholder hsharers]
        exact h.copies other hbound
      · cases hbound
    · rw [hrequested]
      exact h.outstanding other

/-- **Every run of requests from caches keeps the invariant.** -/
theorem Reached.inv (hp : Attached p ports) (h : Reached p ports line FromCache w) :
    Inv p line w := by
  induction h with
  | initial =>
    have hempty : entry (∅ : SnoopFilterCache) line = {} := rfl
    refine ⟨fun port hport => hport.elim, fun port => ⟨fun hport => hport.elim, fun hmarked => ?_⟩⟩
    rw [hempty] at hmarked
    exact absurd hmarked not_marked_zero
  | step hreached hallowed hcond hact hcopies ih =>
    have hstep := ih.step hp hallowed hcond
    rw [hact] at hstep
    exact hstep _ hcopies

end Runs

/-- The filter has the port in its entry for the line. -/
def Tracked (p : Params) (s : SnoopFilter) (line : Addr) (port : ResponsePort) : Prop :=
  ∃ mask, p.portToMask port = .ok mask ∧
    ((entry s.cachedLocations line).holder ||| (entry s.cachedLocations line).requested) &&& mask
      ≠ 0

/-- **The snoop filter never forgets a port.**  In every run in which the requests that await a
response come from caches, the ports with a copy or an outstanding request are tracked, so a snoop
is sent to every other port with a copy; and no action that the contract allows ends in a panic. -/
theorem snoop_filter_tracks {p₀ p : Params} {snooping : List Bool}
    (hports : setCPUSidePorts p₀ (crossbarPorts snooping) = .ok p) {line : Addr} {w : World}
    (h : Reached p (crossbarPorts snooping) line FromCache w) :
    (∀ port, port ∈ w.copies ∨ port ∈ w.outstanding → Tracked p w.filter line port) ∧
    (∀ cpkt s sent, p.lineOf cpkt = line → lookupSnoop p w.filter cpkt = .ok (s, sent) →
      ∀ port ∈ w.copies, port ∈ sent) ∧
    (∀ port cpkt will_retry s sent,
      Allowed p (crossbarPorts snooping) line w (.request port cpkt will_retry) →
      FromCache (.request port cpkt will_retry) →
      lookupRequest p w.filter cpkt port = .ok (s, sent) →
        ∀ other ∈ w.copies, other ≠ port → other ∈ sent) ∧
    (∀ a e, Allowed p (crossbarPorts snooping) line w a → FromCache a →
      act p w.filter a = .error e → ¬ IsPanic e) := by
  have hp := setCPUSidePorts_attached hports
  have hinv := h.inv hp
  refine ⟨fun port hport => ?_, fun cpkt s sent hline hok port hport => ?_,
    fun port cpkt will_retry s sent hallowed hcache hok other hother hne => ?_,
    fun a e hallowed hcache herror => ?_⟩
  · have hmarked : Marked p ((entry w.filter.cachedLocations line).holder |||
        (entry w.filter.cachedLocations line).requested) port :=
      marked_or.mpr (hport.imp (hinv.copies port) (hinv.outstanding port).mp)
    have hin := hmarked.mem
    obtain ⟨k, -, -, hmask⟩ := hp.exists_bit hin
    exact ⟨_, hmask, (hp.and_mask_ne_zero hin hmask).mpr hmarked⟩
  · subst hline
    have hends := lookupSnoop_ends hp (Eq.refl (entry w.filter.cachedLocations (p.lineOf cpkt)))
    rw [hok] at hends
    exact hends.1 port (marked_or.mpr (.inl (hinv.copies port hport)))
  · obtain ⟨hin, rfl, hfree, hevicts⟩ := hallowed
    have hawaited := Packet.allocates_eq hcache
    have hends := lookupRequest_ends hp hin
      (Eq.refl (entry w.filter.cachedLocations (p.lineOf cpkt)))
      (fun hyes hmarked => hfree (hawaited ▸ hyes) ((hinv.outstanding port).mpr hmarked))
      (fun hyes => ?_)
    · rw [hok] at hends
      exact hends.1 other hne (marked_or.mpr (.inl (hinv.copies other hother)))
    · obtain ⟨hallocates, heviction⟩ := Bool.and_eq_true_iff.mp hyes
      simp only [Packet.allocates, Bool.and_eq_true] at hallocates
      exact hinv.copies port (hevicts hallocates.1.2 heviction)
  · have hends := hinv.step hp hallowed hcache
    rw [herror] at hends
    exact hends

/-! ## A cache and a port without one -/

/-- The port of a cache. -/
def cachePort : ResponsePort := ⟨some 0, true⟩

/-- A snooping port without a cache. -/
def barePort : ResponsePort := ⟨some 1, true⟩

/-- The response to a read of address 72. -/
def responseTo72 : Packet := { getAddr := 72, isResponse := true }

/-- The filter after a read by the cache. -/
def afterRead : SnoopFilter :=
  ⟨((∅ : SnoopFilterCache).insert (twoPorts.lineOf readOf72) ⟨1, 0⟩).insert
    (twoPorts.lineOf readOf72) ⟨0, 1⟩, some (twoPorts.lineOf readOf72), {}⟩

/-- The cache reads a line. -/
theorem reached_afterRead {cond : Action → Prop} (hread : cond (.request cachePort readOf72 false))
    (hresponse : cond (.response cachePort responseTo72)) :
    Reached twoPorts (crossbarPorts [true, true]) (twoPorts.lineOf readOf72) cond
      ⟨afterRead, {cachePort}, insert cachePort ∅ \ {cachePort}⟩ := by
  let line := twoPorts.lineOf readOf72
  have hport : cachePort ∈ crossbarPorts [true, true] := by decide
  let s : SnoopFilter := ⟨(∅ : SnoopFilterCache).insert line ⟨1, 0⟩, some line, {}⟩
  have hrequest : act twoPorts {} (.request cachePort readOf72 false) = .ok (s, []) := rfl
  have hanswer : act twoPorts s (.response cachePort responseTo72) = .ok (afterRead, []) := by
    have hlookup : s.cachedLocations.lookup line = some ⟨1, 0⟩ := Finmap.lookup_insert _
    have hline : twoPorts.lineOf responseTo72 = line := rfl
    simp only [act, updateResponse]
    rw [hline, hlookup]
    rfl
  have hallowed : Allowed twoPorts (crossbarPorts [true, true]) line ⟨{}, ∅, ∅⟩
      (.request cachePort readOf72 false) :=
    ⟨hport, rfl, fun _ => not_false, fun _ h => absurd h Bool.false_ne_true⟩
  have hreached : Reached twoPorts (crossbarPorts [true, true]) line cond
      ⟨s, ∅, insert cachePort ∅⟩ :=
    .step .initial hallowed hread hrequest (Set.empty_subset _)
  have hallowed' : Allowed twoPorts (crossbarPorts [true, true]) line ⟨s, ∅, insert cachePort ∅⟩
      (.response cachePort responseTo72) := ⟨hport, rfl, fun _ _ => Set.mem_insert _ _⟩
  exact .step hreached hallowed' hresponse hanswer (by simp [copiesAfter, responseTo72, cachePort])

/-- The cache is tracked after its read. -/
theorem snoop_filter_tracks_read :
    Tracked twoPorts afterRead (twoPorts.lineOf readOf72) cachePort :=
  have hports : setCPUSidePorts twoPorts (crossbarPorts [true, true]) = .ok twoPorts := rfl
  (snoop_filter_tracks hports (reached_afterRead (fun _ => rfl) trivial)).1 cachePort (.inl rfl)

/-- **A panic**: while the cache has the line, the other port reads it, and the response to that
finds the line tracked but no request of the port. -/
theorem bare_read_panics :
    ∃ w a, Reached twoPorts (crossbarPorts [true, true]) (twoPorts.lineOf readOf72)
        (fun _ => True) w ∧
      Allowed twoPorts (crossbarPorts [true, true]) (twoPorts.lineOf readOf72) w a ∧
      act twoPorts w.filter a = .error .missingRequest := by
  let line := twoPorts.lineOf readOf72
  let read : Packet := { readOf72 with fromCache := false }
  have hport : barePort ∈ crossbarPorts [true, true] := by decide
  let s : SnoopFilter :=
    ⟨afterRead.cachedLocations.insert line ⟨0, 1⟩, some line, ⟨0, 1⟩⟩
  have hrequest : act twoPorts afterRead (.request barePort read false) = .ok (s, [cachePort]) := by
    have hlookup : afterRead.cachedLocations.lookup line = some ⟨0, 1⟩ := Finmap.lookup_insert _
    have hentry : entry afterRead.cachedLocations line = ⟨0, 1⟩ := entry_of_lookup hlookup
    have hline : twoPorts.lineOf read = line := rfl
    have hmask : (((1 : SnoopMask) ||| 0 ||| 0) &&& ~~~2) ||| 0 = 1 := by decide
    have hsent : twoPorts.maskToPortList ((((1 : SnoopMask) ||| 0 ||| 0) &&& ~~~2) ||| 0)
        = .ok [cachePort] := by
      rw [hmask]
      rfl
    have hfound : lookupRequest twoPorts afterRead read barePort = .ok (s, [cachePort]) := by
      rw [lookupRequest_eq, hline, hlookup, hentry]
      exact bind_eq_ok.mpr ⟨2, rfl, bind_eq_ok.mpr ⟨⟨0, 1⟩, rfl, bind_eq_ok.mpr ⟨_, hsent, rfl⟩⟩⟩
    refine bind_eq_ok.mpr ⟨_, hfound, bind_eq_ok.mpr ⟨s, ?_, rfl⟩⟩
    exact finishRequest_noted twoPorts afterRead.cachedLocations ⟨0, 1⟩ ⟨0, 1⟩ false 72 false
  have hpanic : act twoPorts s (.response barePort responseTo72) = .error .missingRequest := by
    have hlookup : s.cachedLocations.lookup line = some ⟨0, 1⟩ := Finmap.lookup_insert _
    have hline : twoPorts.lineOf responseTo72 = line := rfl
    simp only [act, updateResponse]
    rw [hline, hlookup]
    rfl
  have hallowed : Allowed twoPorts (crossbarPorts [true, true]) line
      ⟨afterRead, {cachePort}, insert cachePort ∅ \ {cachePort}⟩ (.request barePort read false) :=
    ⟨hport, rfl, fun _ => by simp, fun _ h => absurd h Bool.false_ne_true⟩
  have hcache : Reached twoPorts (crossbarPorts [true, true]) line (fun _ => True)
      ⟨afterRead, {cachePort}, insert cachePort ∅ \ {cachePort}⟩ :=
    reached_afterRead trivial trivial
  have hreached := Reached.step hcache hallowed trivial hrequest le_rfl
  exact ⟨_, .response barePort responseTo72, hreached,
    ⟨hport, rfl, fun _ _ => Set.mem_insert _ _⟩, hpanic⟩

end Gem5.Mem.Snoop
