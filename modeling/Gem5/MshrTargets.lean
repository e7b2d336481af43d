/-
# What the operations of a register do to its targets

What each operation does to the two lists of targets, stated on the keys of the targets: their order
number, their source and whether they are cache maintenance requests.  A new target goes to the end
of what waits, a promotion moves targets from the head of the deferred ones to the end of the
others, and serving takes targets off the front.
-/
import Gem5.Mshr

open Runs

namespace Gem5.Mem

/-! ## Keys -/

/-- What matters of a target for the order of the answers. -/
structure Key where
  order : ℕ
  source : Source
  maintenance : Bool

namespace Key

/-- The target comes from the CPU. -/
def fromCPU (k : Key) : Bool := k.source = .FromCPU

/-- The target comes from the CPU and is a cache maintenance request. -/
def Maintains (k : Key) : Prop := k.fromCPU = true ∧ k.maintenance = true

/-- The order numbers of the targets from the CPU. -/
def orders (ks : List Key) : List ℕ := (ks.filter fromCPU).map order

theorem orders_append (ks ks' : List Key) : orders (ks ++ ks') = orders ks ++ orders ks' := by
  rw [orders, List.filter_append, List.map_append, orders, orders]

/-- Only the first target may be a cache maintenance request. -/
def OnlyFirst (ks : List Key) : Prop := ∀ k ∈ ks.tail, ¬k.Maintains

/-- A cache maintenance request at the head is followed by no other target from the CPU. -/
def Alone (ks : List Key) : Prop :=
  OnlyFirst ks ∧ ∀ k, ks.head? = some k → k.Maintains → ks.tail.filter fromCPU = []

variable {ks : List Key}

theorem onlyFirst_of_forall (h : ∀ k ∈ ks, ¬k.Maintains) : OnlyFirst ks :=
  fun k hk => h k (List.mem_of_mem_tail hk)

theorem alone_of_forall (h : ∀ k ∈ ks, ¬k.Maintains) : Alone ks :=
  ⟨onlyFirst_of_forall h, fun k hk hm => absurd hm (h k (List.mem_of_mem_head? hk))⟩

theorem alone_singleton (k : Key) : Alone [k] :=
  ⟨fun _ h => absurd h List.not_mem_nil, fun _ _ _ => rfl⟩

/-- Targets that are not cache maintenance requests may be appended. -/
theorem OnlyFirst.append {ks' : List Key} (h : OnlyFirst ks) (h' : ∀ k ∈ ks', ¬k.Maintains) :
    OnlyFirst (ks ++ ks') := by
  cases ks with
  | nil => exact onlyFirst_of_forall h'
  | cons k ks =>
    intro j hj
    rw [List.cons_append, List.tail_cons, List.mem_append] at hj
    exact hj.elim (h j) (h' j)

/-- A target that does not come from the CPU may be appended. -/
theorem Alone.append_other (h : Alone ks) {k : Key} (hk : k.fromCPU = false) :
    Alone (ks ++ [k]) := by
  have hkm : ¬k.Maintains := fun hm => by rw [hm.1] at hk; cases hk
  cases ks with
  | nil => exact alone_singleton k
  | cons j ks =>
    refine ⟨h.1.append fun i hi => List.mem_singleton.mp hi ▸ hkm, fun i hi hm => ?_⟩
    rw [List.cons_append, List.tail_cons, List.filter_append]
    rw [show ks.filter fromCPU = [] from h.2 i hi hm]
    simp [hk]

/-- A target that is no cache maintenance request may be appended behind a head that is none. -/
theorem Alone.append_plain (h : Alone ks) {k : Key} (hk : k.maintenance = false)
    (hhead : ∀ j, ks.head? = some j → j.maintenance = false) : Alone (ks ++ [k]) := by
  refine alone_of_forall fun j hj hm => ?_
  rw [List.mem_append, List.mem_singleton] at hj
  rcases hj with hj | rfl
  · cases ks with
    | nil => cases hj
    | cons i ks =>
      rcases List.mem_cons.mp hj with rfl | hj
      · exact Bool.false_ne_true ((hhead j rfl).symm.trans hm.2)
      · exact h.1 j hj hm
  · exact Bool.false_ne_true (hk.symm.trans hm.2)

end Key

open Key

def Target.key (t : Target) : Key := ⟨t.order, t.source, t.pkt.req.isCacheMaintenance⟩

namespace TargetList

/-- The keys of the targets of a list. -/
def keys (l : TargetList) : List Key := l.targets.map Target.key

@[simp] theorem updateFlags_targets (l : TargetList) (pkt : MissPacket) (source : Source)
    (allocOnFill : Bool) : (l.updateFlags pkt source allocOnFill).targets = l.targets := by
  unfold updateFlags updateRequestFlags
  split_ifs
  · rfl
  · rfl
  · rw [updateWriteFlags_targets]

@[simp] theorem populateFlags_targets (l : TargetList) : l.populateFlags.targets = l.targets := by
  have hfold : ∀ (ts : List Target) (l : TargetList),
      (ts.foldl (fun l t => l.updateFlags t.pkt t.source t.allocOnFill) l).targets = l.targets := by
    intro ts
    induction ts with
    | nil => exact fun _ => rfl
    | cons t ts ih => exact fun l => (ih _).trans (updateFlags_targets l _ _ _)
  exact hfold l.targets l.resetFlags

@[simp] theorem keys_add (l : TargetList) (pkt : MissPacket) (readyTime order : ℕ)
    (source : Source) (markPending allocOnFill : Bool) :
    (l.add pkt readyTime order source markPending allocOnFill).keys =
      l.keys ++ [⟨order, source, pkt.req.isCacheMaintenance⟩] := by
  show ((l.updateFlags pkt source allocOnFill).targets ++ [_]).map Target.key = _
  rw [updateFlags_targets, List.map_append]
  rfl

theorem replaceUpgrade_req (pkt : MissPacket) : pkt.replaceUpgrade.req = pkt.req := by
  unfold MissPacket.replaceUpgrade
  split <;> rfl

@[simp] theorem keys_replaceUpgrades (l : TargetList) : l.replaceUpgrades.keys = l.keys := by
  unfold replaceUpgrades
  split_ifs
  · show (l.targets.map _).map Target.key = l.targets.map Target.key
    rw [List.map_map]
    refine List.map_congr_left fun t _ => ?_
    simp only [Function.comp_apply, Target.key, replaceUpgrade_req]
  · rfl

theorem map_key_unmark (ts : List Target) : (unmark ts).map Target.key = ts.map Target.key := by
  rw [unmark, List.map_map]
  rfl

@[simp] theorem keys_clearDownstreamPending (l : TargetList) :
    l.clearDownstreamPending.keys = l.keys :=
  map_key_unmark l.targets

end TargetList

/-! ## What each operation does to the two lists -/

namespace MSHR

open TargetList

/-- The keys of the two lists and the service flag stay. -/
structure Keeps (m m' : MSHR) : Prop where
  targets : m'.targets.keys = m.targets.keys
  deferred : m'.deferredTargets.keys = m.deferredTargets.keys
  inService : m'.inService = m.inService

variable {m m' : MSHR} {pkt : MissPacket}

theorem allocate_spec {blkSize : ℕ} {whenReady order : ℕ} {allocOnFill : Bool}
    (h : m.allocate blkSize pkt whenReady order allocOnFill = .ok m') :
    m.targets.keys = [] ∧ m.deferredTargets.keys = [] ∧ m'.deferredTargets.keys = [] ∧
      m'.targets.keys = [⟨order, if pkt.cmd = .HardPFReq then .FromPrefetcher else .FromCPU,
        pkt.req.isCacheMaintenance⟩] ∧ m'.inService = false := by
  obtain ⟨_, hempty, hm⟩ := bind_eq_ok.mp h
  cases hm
  rw [require_eq_ok, Bool.and_eq_true, List.isEmpty_iff, List.isEmpty_iff] at hempty
  have ht : m.targets.keys = [] := by rw [keys, hempty.1]; rfl
  have hd : m.deferredTargets.keys = [] := by rw [keys, hempty.2]; rfl
  refine ⟨ht, hd, hd, ?_, rfl⟩
  show (TargetList.add (m.targets.init blkSize) _ _ _ _ _ _).keys = _
  rw [keys_add]
  exact congrArg (· ++ _) ht

theorem clearDownstreamPending_spec (h : m.clearDownstreamPending = .ok m') :
    Keeps m m' := by
  obtain ⟨_, _, hm⟩ := bind_eq_ok.mp h
  cases hm
  exact ⟨keys_clearDownstreamPending _, rfl, rfl⟩

theorem markInService_spec {pendingModifiedResp : Bool}
    (h : m.markInService pendingModifiedResp = .ok m') :
    m'.targets.keys = m.targets.keys ∧ m'.deferredTargets.keys = m.deferredTargets.keys ∧
      m'.inService = true := by
  obtain ⟨_, _, hm⟩ := bind_eq_ok.mp h
  cases hm
  refine ⟨?_, rfl, rfl⟩
  show (if m.downstreamPending then m.targets else m.targets.clearDownstreamPending).keys = _
  split_ifs
  · rfl
  · exact keys_clearDownstreamPending _

/-- A target that is not deferred finds no cache maintenance request and nothing deferred. -/
theorem not_defers {tgtPkt : MissPacket} (h : m.defers tgtPkt pkt = false) :
    pkt.req.isCacheMaintenance = false ∧ tgtPkt.req.isCacheMaintenance = false ∧
      m.deferredTargets.targets = [] := by
  simp only [defers, Bool.or_eq_false_iff, Bool.not_eq_eq_eq_not, Bool.not_false,
    List.isEmpty_iff] at h
  exact ⟨h.1.1.1, h.1.1.2, h.1.2⟩

/-- **A new target** goes to the end of what waits; next to a cache maintenance request, or as
one, it is deferred. -/
theorem allocateTarget_spec {whenReady order : ℕ} {allocOnFill : Bool}
    (h : m.allocateTarget pkt whenReady order allocOnFill = .ok m') :
    let k : Key := ⟨order, .FromCPU, pkt.req.isCacheMaintenance⟩
    m'.inService = m.inService ∧
      (m'.targets.keys = m.targets.keys ∧
          m'.deferredTargets.keys = m.deferredTargets.keys ++ [k] ∨
        m'.targets.keys = m.targets.keys ++ [k] ∧ m.deferredTargets.keys = [] ∧
          m'.deferredTargets.keys = [] ∧ k.maintenance = false ∧
          ∀ j, m.targets.keys.head? = some j → j.maintenance = false) := by
  obtain ⟨_, _, h⟩ := bind_eq_ok.mp h
  obtain ⟨front, hfront, hm⟩ := bind_eq_ok.mp h
  rw [orFail_eq_ok] at hfront
  cases hdef : m.defers front.pkt pkt with
  | true =>
    simp only [hdef, if_true] at hm
    cases hm
    refine ⟨rfl, .inl ⟨rfl, ?_⟩⟩
    show (TargetList.add m.deferredTargets _ _ _ _ _ _).keys = _
    rw [keys_add]
    split_ifs
    · rw [replaceUpgrade_req]
    · rfl
  | false =>
    simp only [hdef, Bool.false_eq_true, if_false] at hm
    cases hm
    obtain ⟨hpkt, hfst, hempty⟩ := not_defers hdef
    have hd : m.deferredTargets.keys = [] := by rw [keys, hempty]; rfl
    refine ⟨rfl, .inr ⟨keys_add _ _ _ _ _ _ _, hd, hd, hpkt, fun j hj => ?_⟩⟩
    rw [keys, List.head?_map, hfront, Option.map_some, Option.some.injEq] at hj
    rw [← hj]
    exact hfst

theorem replaceAll_keeps (m : MSHR) (pkt : MissPacket) : Keeps m (m.replaceAll pkt) := by
  unfold replaceAll
  split_ifs
  · exact ⟨keys_replaceUpgrades _, keys_replaceUpgrades _, rfl⟩
  · exact ⟨rfl, rfl, rfl⟩

theorem replaceDeferred_keeps (m : MSHR) (pkt : MissPacket) : Keeps m (m.replaceDeferred pkt) := by
  unfold replaceDeferred
  split_ifs
  · exact ⟨rfl, keys_replaceUpgrades _, rfl⟩
  · exact ⟨rfl, rfl, rfl⟩

/-- A snoop appends at most one target, which does not come from the CPU. -/
structure Snoops (m m' : MSHR) : Prop where
  targets : m'.targets.keys = m.targets.keys ∨
    ∃ k : Key, k.source = .FromSnoop ∧ m'.targets.keys = m.targets.keys ++ [k]
  deferred : m'.deferredTargets.keys = m.deferredTargets.keys
  inService : m'.inService = m.inService

theorem Keeps.snoops (h : Keeps m m') : Snoops m m' :=
  ⟨.inl h.targets, h.deferred, h.inService⟩

theorem snoopInService_snoops (m : MSHR) (pkt : MissPacket) (curTick order : ℕ) :
    Snoops m (m.snoopInService pkt curTick order).2.2 := by
  have happend : ∀ b, Snoops m (m.appendSnoop b pkt curTick order) := fun b =>
    ⟨.inr ⟨_, rfl, keys_add _ _ _ _ _ _ _⟩, rfl, rfl⟩
  have hsame : Snoops m m := ⟨.inl rfl, rfl, rfl⟩
  unfold snoopInService
  dsimp only
  split_ifs
  · exact ⟨(happend _).targets, rfl, rfl⟩
  · exact ⟨hsame.targets, rfl, rfl⟩
  · exact happend _
  · exact hsame

theorem handleSnoop_spec {pkt' : MissPacket} {curTick order : ℕ} {b : Bool}
    (h : m.handleSnoop pkt curTick order = .ok (b, pkt', m')) : Snoops m m' := by
  obtain ⟨_, _, h⟩ := bind_eq_ok.mp h
  split_ifs at h
  · cases h
    exact (m.replaceAll_keeps pkt).snoops
  · obtain ⟨front, _, h⟩ := bind_eq_ok.mp h
    have hrep := m.replaceDeferred_keeps pkt
    dsimp only at h
    split_ifs at h
    · cases h
      exact hrep.snoops
    · have hsnoop := (m.replaceDeferred pkt).snoopInService_snoops pkt curTick order
      rw [Except.ok.inj h] at hsnoop
      refine ⟨?_, hsnoop.deferred.trans hrep.deferred, hsnoop.inService.trans hrep.inService⟩
      rw [← hrep.targets]
      exact hsnoop.targets

/-- The targets that `pred` selects move from one list to the end of the other. -/
theorem promoteIf_spec {pred : Target → Bool} (h : m.promoteIf pred = .ok m') :
    m'.targets.keys = m.targets.keys ++ (m.deferredTargets.targets.takeWhile pred).map Target.key ∧
      m'.deferredTargets.keys = (m.deferredTargets.targets.dropWhile pred).map Target.key := by
  obtain ⟨_, _, hm⟩ := bind_eq_ok.mp h
  cases hm
  refine ⟨?_, ?_⟩
  · show (m.targets.targets ++ unmark _).map Target.key = _
    rw [List.map_append, map_key_unmark]
    rfl
  · show (TargetList.populateFlags _).targets.map Target.key = _
    rw [populateFlags_targets]

/-- The deferred targets that `promoteReadable` promotes. -/
def promotedReadable (m : MSHR) : List Target :=
  if !m.deferredTargets.targets.isEmpty && !m.postInvalidate then
    m.deferredTargets.targets.takeWhile readablePred
  else []

/-- The deferred targets that `promoteWritable` promotes. -/
def promotedWritable (m : MSHR) : List Target :=
  if m.promotesWritable then m.deferredTargets.targets.takeWhile writablePred else []

/-- A promotion moves the targets `moved` from the head of one list to the end of the other. -/
structure Promotes (moved : List Target) (m m' : MSHR) : Prop where
  targets : m'.targets.keys = m.targets.keys ++ moved.map Target.key
  deferred : m.deferredTargets.keys = moved.map Target.key ++ m'.deferredTargets.keys

theorem Promotes.none (m : MSHR) : Promotes [] m m := ⟨(List.append_nil _).symm, rfl⟩

theorem promotes_of_promoteIf {pred : Target → Bool} (h : m.promoteIf pred = .ok m') :
    Promotes (m.deferredTargets.targets.takeWhile pred) m m' := by
  obtain ⟨ht, hd⟩ := promoteIf_spec h
  refine ⟨ht, ?_⟩
  rw [hd, ← List.map_append, List.takeWhile_append_dropWhile]
  rfl

theorem promoteReadable_spec (h : m.promoteReadable = .ok m') :
    Promotes m.promotedReadable m m' := by
  unfold promoteReadable at h
  unfold promotedReadable
  split_ifs at h ⊢
  · exact promotes_of_promoteIf h
  · cases h
    exact .none m

theorem promoteWritable_spec (h : m.promoteWritable = .ok m') :
    Promotes m.promotedWritable m m' := by
  unfold promoteWritable at h
  unfold promotedWritable
  split_ifs at h ⊢
  · obtain ⟨_, _, h⟩ := bind_eq_ok.mp h
    have hp := promotes_of_promoteIf h
    exact ⟨hp.targets, hp.deferred⟩
  · cases h
    exact .none m

theorem filter_fromCPU_map_key (ts : List Target) :
    (ts.map Target.key).filter Key.fromCPU =
      (ts.filter (·.source = .FromCPU)).map Target.key := by
  rw [List.filter_map]
  rfl

/-- What is served and what is left are, of the targets from the CPU, the first and the others. -/
theorem orders_serviceable (ts : List Target) :
    orders ((serviceable ts).map Target.key) ++ orders ((notServiceable ts).map Target.key) =
      orders (ts.map Target.key) := by
  have htail : ∀ l : List Target, (l.filter (·.source ≠ .FromCPU)).filter (·.source = .FromCPU) =
      [] := by
    intro l
    rw [List.filter_filter, List.filter_eq_nil_iff]
    intro t _ h
    simp at h
  have hidem : ∀ l : List Target, (l.filter (·.source = .FromCPU)).filter (·.source = .FromCPU) =
      l.filter (·.source = .FromCPU) := by
    intro l
    rw [List.filter_filter]
    exact List.filter_congr fun t _ => Bool.and_self _
  cases ts with
  | nil => rfl
  | cons t ts =>
    simp only [orders, filter_fromCPU_map_key, serviceable, notServiceable, List.head?_cons,
      Option.toList_some, List.tail_cons, List.filter_append, htail, hidem, List.append_nil]
    rw [← List.map_append, ← List.map_append, ← List.filter_append]
    rfl

/-- Serving takes the targets off the front, and with them every cache maintenance request. -/
theorem extractServiceableTargets_spec {cmd : MemCmd} {ready : TargetList}
    (h : m.extractServiceableTargets cmd = .ok (ready, m')) :
    m'.deferredTargets.keys = m.deferredTargets.keys ∧ m'.inService = m.inService ∧
      orders ready.keys ++ orders m'.targets.keys = orders m.targets.keys ∧
      (OnlyFirst m.targets.keys →
        OnlyFirst ready.keys ∧ ∀ k ∈ m'.targets.keys, ¬k.Maintains) := by
  unfold extractServiceableTargets at h
  dsimp only at h
  split_ifs at h
  · obtain ⟨_, _, h⟩ := bind_eq_ok.mp h
    cases h
    have hready : ∀ l : TargetList,
        (populateFlags { l with targets := serviceable m.targets.targets }).keys =
          (serviceable m.targets.targets).map Target.key := by
      intro l
      rw [keys, populateFlags_targets]
    have hleft : (populateFlags { m.targets with
        targets := notServiceable m.targets.targets }).keys =
          (notServiceable m.targets.targets).map Target.key := by
      rw [keys, populateFlags_targets]
    rw [hready, hleft]
    refine ⟨rfl, rfl, orders_serviceable _, fun honly => ⟨?_, ?_⟩⟩
    · intro k hk hm
      cases hts : m.targets.targets with
      | nil => rw [hts] at hk; exact absurd hk List.not_mem_nil
      | cons t ts =>
        rw [hts] at hk
        obtain ⟨t', ht', rfl⟩ := List.mem_map.mp (show k ∈ List.map _ (ts.filter _) from hk)
        have hsource := (List.mem_filter.mp ht').2
        rw [decide_eq_true_eq] at hsource
        exact hsource (of_decide_eq_true hm.1)
    · intro k hk hm
      obtain ⟨t, ht, rfl⟩ := List.mem_map.mp hk
      refine honly _ ?_ hm
      rw [keys, ← List.map_tail]
      exact List.mem_map_of_mem (List.mem_of_mem_filter ht)
  · cases h
    have hnone : (populateFlags (({} : TargetList).init m.blkSize)).keys = [] := by
      rw [keys, populateFlags_targets]; rfl
    rw [hnone]
    refine ⟨rfl, rfl, List.append_nil _, fun honly => ⟨honly, ?_⟩⟩
    exact fun _ hk => absurd hk List.not_mem_nil

/-- Deferred targets are promoted from the front, and a cache maintenance request only alone. -/
theorem promoted_spec (targets deferred : List Target) :
    ∃ moved, (promoted targets deferred).1 = targets ++ moved ∧
      deferred = moved ++ (promoted targets deferred).2 ∧
      ((∀ t ∈ targets, ¬t.key.Maintains) → Alone ((targets ++ moved).map Target.key)) := by
  unfold promoted
  rw [List.span_eq_takeWhile_dropWhile]
  have hsplit := List.takeWhile_append_dropWhile
    (p := fun t : Target => !t.pkt.req.isCacheMaintenance) (l := deferred)
  have hplain : ∀ t ∈ deferred.takeWhile (fun t => !t.pkt.req.isCacheMaintenance),
      ¬t.key.Maintains := by
    intro t ht hm
    have hp := List.mem_takeWhile_imp ht
    rw [show t.pkt.req.isCacheMaintenance = true from hm.2] at hp
    cases hp
  have hall : ∀ {ts : List Target}, (∀ t ∈ ts, ¬t.key.Maintains) → Alone (ts.map Target.key) := by
    intro ts hts
    refine alone_of_forall fun k hk => ?_
    obtain ⟨t, ht, rfl⟩ := List.mem_map.mp hk
    exact hts t ht
  split
  · next t rest heq =>
      obtain ⟨hbefore, hrest⟩ := Prod.ext_iff.mp heq
      dsimp only at hbefore hrest
      rw [hbefore, hrest, List.nil_append] at hsplit
      split_ifs with hempty
      · rw [List.isEmpty_iff] at hempty
        rw [hempty]
        exact ⟨[t], rfl, hsplit.symm, fun _ => alone_singleton _⟩
      · exact ⟨[], (List.append_nil _).symm, hsplit.symm,
          fun hts => hall (by rwa [List.append_nil])⟩
  · next before rest hne heq =>
      obtain ⟨hbefore, hrest⟩ := Prod.ext_iff.mp heq
      dsimp only at hbefore hrest
      rw [hbefore, hrest] at hsplit
      refine ⟨before, rfl, hsplit.symm, fun hts => hall fun t ht => ?_⟩
      rcases List.mem_append.mp ht with ht | ht
      · exact hts t ht
      · exact hplain t (hbefore ▸ ht)

/-- After a promotion of deferred targets the register waits again. -/
theorem promoteDeferredTargets_true {curTick : ℕ}
    (h : m.promoteDeferredTargets curTick = (true, m')) :
    ∃ moved, Promotes moved m m' ∧
      ((∀ k ∈ m.targets.keys, ¬k.Maintains) → Alone m'.targets.keys) := by
  unfold promoteDeferredTargets at h
  split_ifs at h
  · cases h
  · obtain ⟨moved, htargets, hdeferred, halone⟩ :=
      promoted_spec m.targets.targets m.deferredTargets.targets
    rcases hp : promoted m.targets.targets m.deferredTargets.targets with ⟨targets, deferred⟩
    rw [hp] at h htargets hdeferred
    cases h
    dsimp only at htargets hdeferred
    refine ⟨moved, ⟨?_, ?_⟩, fun hk => ?_⟩
    · simp only [keys, populateFlags_targets, htargets, List.map_append]
    · simp only [keys, populateFlags_targets]
      rw [hdeferred, List.map_append]
    · simp only [keys, populateFlags_targets, htargets]
      exact halone fun t ht => hk _ (List.mem_map_of_mem ht)

theorem promoteDeferredTargets_false {curTick : ℕ}
    (h : m.promoteDeferredTargets curTick = (false, m')) :
    m' = m ∧ m.targets.keys = [] ∧ m.deferredTargets.keys = [] := by
  unfold promoteDeferredTargets at h
  split_ifs at h with hempty
  · cases h
    rw [Bool.and_eq_true, List.isEmpty_iff, List.isEmpty_iff] at hempty
    refine ⟨rfl, ?_, ?_⟩
    · rw [keys, hempty.1]; rfl
    · rw [keys, hempty.2]; rfl
  · cases h

end MSHR

end Gem5.Mem
