/-
# The order of the answers of a register

The targets from the CPU are answered in the order in which they arrive: those that wait are in
`targets`, followed by `deferredTargets`, and `arrived` is the concatenation of what has been
answered and what waits.  A cache maintenance request is deferred when it arrives, and promoted
only when nothing else waits, so that it is alone among the targets from the CPU when it is sent.

This changes when a response promotes deferred targets.  `promoteReadable` puts reads behind a clean
request that is about to be answered.  But it and `promoteWritable` stop only at requests that
invalidate, so that they can also take a clean request along with the targets before it; that
request is answered without having been sent, and the results on cache maintenance requests leave
such promotions out.
-/
import Gem5.MshrTargets

open Runs

namespace Gem5.Mem

open Key

/-! ## The history of the answers -/

/-- Every cache maintenance request has been answered by a response to a request that was sent when
exactly the earlier arrivals had been answered. -/
def InTurn (answered : List Answer) : Prop :=
  ∀ before a after, answered = before ++ a :: after → a.isCacheMaintenance = true →
    a.sentAfter = before.map Answer.order

theorem InTurn.append {answered new : List Answer} (h : InTurn answered)
    (hnew : ∀ before a after, new = before ++ a :: after → a.isCacheMaintenance = true →
      before = [] ∧ a.sentAfter = answered.map Answer.order) : InTurn (answered ++ new) := by
  intro before a after heq hm
  rcases List.append_eq_append_iff.mp heq with ⟨cs, hbefore, hcs⟩ | ⟨cs, hanswered, hcs⟩
  · obtain ⟨hnil, hsent⟩ := hnew cs a after hcs hm
    rw [hbefore, hnil, List.append_nil, hsent]
  · cases cs with
    | nil =>
      obtain ⟨-, hsent⟩ := hnew [] a after hcs.symm hm
      rw [hsent, hanswered, List.append_nil]
    | cons c cs =>
      rw [List.cons_append, List.cons.injEq] at hcs
      exact h before a cs (hcs.1 ▸ hanswered) hm

namespace CacheMSHR

open MSHR

theorem answers_order (sentAfter : List ℕ) (ts : List Target) :
    (answers sentAfter ts).map Answer.order = orders (ts.map Target.key) := by
  rw [answers, orders, filter_fromCPU_map_key, List.map_map, List.map_map]
  rfl

variable {ts : List Target} {s s' : CacheMSHR} {op : MshrOp}

/-- Among targets of which only the first may be a cache maintenance request only the first answer
may be to one. -/
theorem answers_onlyFirst {sentAfter : List ℕ} (h : OnlyFirst (ts.map Target.key))
    {before after : List Answer} {a : Answer} (heq : answers sentAfter ts = before ++ a :: after)
    (hm : a.isCacheMaintenance = true) :
    before = [] ∧ a.sentAfter = sentAfter := by
  have hmem : a ∈ answers sentAfter ts := by
    rw [heq]
    exact List.mem_append_right _ List.mem_cons_self
  have hsent : a.sentAfter = sentAfter := by
    obtain ⟨t, _, rfl⟩ := List.mem_map.mp hmem
    rfl
  refine ⟨?_, hsent⟩
  cases ts with
  | nil => exact absurd hmem List.not_mem_nil
  | cons t ts =>
    have htail : a ∉ answers sentAfter ts := by
      intro hmem
      obtain ⟨t', ht', rfl⟩ := List.mem_map.mp hmem
      obtain ⟨ht', hsource⟩ := List.mem_filter.mp ht'
      exact h t'.key (List.mem_map_of_mem ht') ⟨hsource, hm⟩
    cases before with
    | nil => rfl
    | cons b before =>
      refine absurd ?_ htail
      have hlater : a ∈ before ++ a :: after := List.mem_append_right _ List.mem_cons_self
      by_cases ht : t.source = .FromCPU
      · have hcons : answers sentAfter (t :: ts) =
            ⟨t.order, t.pkt.req.isCacheMaintenance, sentAfter⟩ :: answers sentAfter ts := by
          simp [answers, ht]
        rw [hcons, List.cons_append, List.cons.injEq] at heq
        rw [heq.2]
        exact hlater
      · have hcons : answers sentAfter (t :: ts) = answers sentAfter ts := by
          simp [answers, ht]
        rw [← hcons]
        exact hmem

/-! ## The order of arrival -/

/-- The targets from the CPU that have arrived are those answered, and those that wait, in the order
of the two lists. -/
structure Ordered (s : CacheMSHR) : Prop where
  deferred : ∀ k ∈ s.mshr.deferredTargets.keys, k.fromCPU = true
  arrived : s.arrived = s.answered.map Answer.order ++ orders s.mshr.targets.keys ++
    orders s.mshr.deferredTargets.keys

theorem orders_singleton {k : Key} (h : k.fromCPU = true) : orders [k] = [k.order] := by
  rw [orders, List.filter_cons_of_pos h]
  rfl

theorem orders_of_not {k : Key} (h : k.fromCPU = false) : orders [k] = [] := by
  simp [orders, h]

/-- What keeps the two lists, in their order, keeps the order of arrival. -/
theorem Ordered.of_lists (h : Ordered s) (harrived : s'.arrived = s.arrived)
    (hanswered : s'.answered = s.answered)
    (hlists : orders s'.mshr.targets.keys ++ orders s'.mshr.deferredTargets.keys =
      orders s.mshr.targets.keys ++ orders s.mshr.deferredTargets.keys)
    (hsub : s'.mshr.deferredTargets.keys ⊆ s.mshr.deferredTargets.keys) : Ordered s' := by
  refine ⟨fun k hk => h.deferred k (hsub hk), ?_⟩
  rw [harrived, hanswered, h.arrived, List.append_assoc, List.append_assoc, hlists]

theorem Ordered.keeps (h : Ordered s) {m : MSHR} (hm : Snoops s.mshr m) {phase : Phase} :
    Ordered { s with mshr := m, phase := phase } := by
  refine h.of_lists rfl rfl ?_ (hm.deferred ▸ List.Subset.refl _)
  show orders m.targets.keys ++ orders m.deferredTargets.keys = _
  rw [hm.deferred]
  rcases hm.targets with ht | ⟨k, hk, ht⟩
  · rw [ht]
  · have hcpu : k.fromCPU = false := by rw [fromCPU, hk]; rfl
    rw [ht, orders_append, orders_of_not hcpu, List.append_nil]

theorem Ordered.promotes (h : Ordered s) {m : MSHR} {moved : List Target}
    (hm : Promotes moved s.mshr m) {phase : Phase} :
    Ordered { s with mshr := m, phase := phase } := by
  refine h.of_lists rfl rfl ?_ (hm.deferred ▸ List.subset_append_right _ _)
  show orders m.targets.keys ++ orders m.deferredTargets.keys = _
  rw [hm.targets, hm.deferred, orders_append, orders_append, List.append_assoc]

theorem start_ordered (h : Ordered s) (hs : s.start op = .ok s') :
    Ordered s' := by
  cases op with
  | allocate blkSize pkt whenReady order allocOnFill =>
    obtain ⟨m, hm, hs⟩ := bind_eq_ok.mp hs
    cases hs
    obtain ⟨ht, hd, hd', ht', -⟩ := allocate_spec hm
    refine ⟨fun k hk => absurd hk (hd' ▸ List.not_mem_nil), ?_⟩
    show s.arrived ++ _ = s.answered.map Answer.order ++ orders m.targets.keys ++
      orders m.deferredTargets.keys
    rw [h.arrived, ht, hd, hd', ht']
    split_ifs <;> simp [orders, fromCPU]
  | _ => cases hs

theorem operate_ordered (h : Ordered s) (hs : s.operate op = .ok s') : Ordered s' := by
  cases op with
  | allocateTarget pkt whenReady order allocOnFill =>
    obtain ⟨m, hm, hs⟩ := bind_eq_ok.mp hs
    cases hs
    obtain ⟨-, ⟨ht, hd⟩ | ⟨ht, hd, hd', -, -⟩⟩ := allocateTarget_spec hm
    · refine ⟨fun k hk => ?_, ?_⟩
      · rw [show CacheMSHR.mshr _ = m from rfl, hd, List.mem_append, List.mem_singleton] at hk
        rcases hk with hk | rfl
        · exact h.deferred k hk
        · rfl
      · show s.arrived ++ [order] = s.answered.map Answer.order ++ orders m.targets.keys ++
          orders m.deferredTargets.keys
        rw [ht, hd, orders_append, orders_singleton rfl, h.arrived, List.append_assoc]
    · refine ⟨fun k hk => absurd hk (hd' ▸ List.not_mem_nil), ?_⟩
      show s.arrived ++ [order] = s.answered.map Answer.order ++ orders m.targets.keys ++
        orders m.deferredTargets.keys
      rw [ht, hd', orders_append, orders_singleton rfl, h.arrived, hd]
      simp only [orders, List.filter_nil, List.map_nil, List.append_nil, List.append_assoc]
  | handleSnoop pkt curTick order =>
    obtain ⟨⟨b, pkt', m⟩, hm, hs⟩ := bind_eq_ok.mp hs
    cases hs
    exact h.keeps (handleSnoop_spec hm)
  | markInService isForward pendingModifiedResp =>
    obtain ⟨m, hm, hs⟩ := bind_eq_ok.mp hs
    cases hs
    obtain ⟨ht, hd, -⟩ := markInService_spec hm
    refine h.of_lists rfl rfl ?_ (hd ▸ List.Subset.refl _)
    show orders m.targets.keys ++ orders m.deferredTargets.keys = _
    rw [ht, hd]
  | setDownstreamPending =>
    cases hs
    exact ⟨h.deferred, h.arrived⟩
  | clearDownstreamPending =>
    obtain ⟨m, hm, hs⟩ := bind_eq_ok.mp hs
    cases hs
    exact h.keeps (clearDownstreamPending_spec hm).snoops
  | recvTimingResp r =>
    obtain ⟨_, _, hs⟩ := bind_eq_ok.mp hs
    obtain ⟨_, _, hs⟩ := bind_eq_ok.mp hs
    obtain ⟨_, _, hs⟩ := bind_eq_ok.mp hs
    obtain ⟨_, _, hs⟩ := bind_eq_ok.mp hs
    cases hs
    exact ⟨h.deferred, h.arrived⟩
  | _ => cases hs

theorem serve_ordered {r : Response} (h : Ordered s) (hs : s.serve r = .ok s') :
    Ordered s' := by
  obtain ⟨⟨ready, m⟩, hm, hs⟩ := bind_eq_ok.mp hs
  cases hs
  obtain ⟨hd, -, hlists, -⟩ := extractServiceableTargets_spec hm
  refine ⟨fun k hk => h.deferred k (hd ▸ hk), ?_⟩
  show s.arrived = (s.answered ++ answers s.sentAfter ready.targets).map Answer.order ++
    orders m.targets.keys ++ orders m.deferredTargets.keys
  rw [List.map_append, answers_order, h.arrived, ← hlists, hd]
  simp only [List.append_assoc]
  rfl

theorem finish_ordered {curTick : ℕ} (h : Ordered s) (hs : s.finish curTick = .ok s') :
    Ordered s' := by
  unfold finish at hs
  rcases hp : s.mshr.promoteDeferredTargets curTick with ⟨_ | _, m⟩
  · rw [hp] at hs
    obtain ⟨rfl, -, -⟩ := promoteDeferredTargets_false hp
    obtain ⟨m, hm, hs⟩ := bind_eq_ok.mp hs
    cases hs
    obtain ⟨_, _, hm⟩ := bind_eq_ok.mp hm
    obtain ⟨_, _, hm⟩ := bind_eq_ok.mp hm
    cases hm
    exact ⟨h.deferred, h.arrived⟩
  · rw [hp] at hs
    obtain ⟨moved, hm, -⟩ := promoteDeferredTargets_true hp
    obtain ⟨_, _, hs⟩ := bind_eq_ok.mp hs
    cases hs
    exact h.promotes (m := { m with inService := false }) ⟨hm.targets, hm.deferred⟩

/-- The targets that the next operation promotes, when that is `promoteReadable` or
`promoteWritable`. -/
def promotedNext (s : CacheMSHR) : List Target :=
  match s.phase with
  | .promoteReadable r => if r.cleans then s.mshr.promotedReadable else []
  | .promoteWritable r => if r.grants then s.mshr.promotedWritable else []
  | _ => []

/-- **One operation keeps the order of arrival.** -/
theorem step_ordered (h : Ordered s) (hs : s.step op = .ok s') :
    Ordered s' := by
  unfold step at hs
  split at hs
  · exact start_ordered h hs
  · exact operate_ordered h hs
  · split_ifs at hs
    · obtain ⟨m, hm, hs⟩ := bind_eq_ok.mp hs
      cases hs
      exact h.promotes (promoteReadable_spec hm)
    · cases hs
      exact ⟨h.deferred, h.arrived⟩
  · split_ifs at hs
    · obtain ⟨m, hm, hs⟩ := bind_eq_ok.mp hs
      cases hs
      exact h.promotes (promoteWritable_spec hm)
    · cases hs
      exact ⟨h.deferred, h.arrived⟩
  · exact serve_ordered h hs
  · exact finish_ordered h hs
  · cases hs

/-! ## Cache maintenance requests -/

/-- What is known of the targets in a phase. -/
def Isolates : Phase → List Key → Prop
  | .free, ks => ks = []
  | .allocated, ks | .promoteReadable _, ks => Alone ks
  | .promoteWritable _, ks | .serviceTargets _, ks => OnlyFirst ks
  | .promoteDeferredTargets _, ks => ∀ k ∈ ks, ¬k.Maintains

/-- A request has been sent and its response has not been served. -/
def Outstanding (s : CacheMSHR) : Prop :=
  match s.phase with
  | .free | .promoteDeferredTargets _ => False
  | .allocated => s.mshr.inService = true
  | .promoteReadable _ | .promoteWritable _ | .serviceTargets _ => True

/-- A cache maintenance request is not served together with other targets, and the answers so far
were given in turn. -/
structure Isolated (s : CacheMSHR) : Prop where
  targets : Isolates s.phase s.mshr.targets.keys
  sent : Outstanding s → s.sentAfter = s.answered.map Answer.order
  answered : InTurn s.answered

theorem start_isolated (h : Isolated s) (hs : s.start op = .ok s') : Isolated s' := by
  cases op with
  | allocate blkSize pkt whenReady order allocOnFill =>
    obtain ⟨m, hm, hs⟩ := bind_eq_ok.mp hs
    cases hs
    obtain ⟨-, -, -, ht, hservice⟩ := allocate_spec hm
    refine ⟨?_, fun hout => ?_, h.answered⟩
    · show Alone m.targets.keys
      rw [ht]
      exact alone_singleton _
    · exact absurd (hservice.symm.trans hout) Bool.false_ne_true
  | _ => cases hs

/-- A step of an allocated register that keeps or appends to its targets. -/
theorem Isolated.of_allocated (h : Isolated s) (hphase : s.phase = .allocated)
    (hphase' : s'.phase = .allocated) (hsent : s'.sentAfter = s.sentAfter)
    (hanswered : s'.answered = s.answered) (hservice : s'.mshr.inService = s.mshr.inService)
    (halone : Alone s.mshr.targets.keys → Alone s'.mshr.targets.keys) : Isolated s' := by
  refine ⟨?_, fun hout => ?_, hanswered ▸ h.answered⟩
  · rw [hphase']
    have htargets := h.targets
    rw [hphase] at htargets
    exact halone htargets
  · rw [hsent, hanswered]
    refine h.sent ?_
    unfold Outstanding at hout ⊢
    rw [hphase'] at hout
    rw [hphase]
    exact hservice.symm.trans hout

theorem operate_isolated (h : Isolated s) (hphase : s.phase = .allocated)
    (hs : s.operate op = .ok s') : Isolated s' := by
  cases op with
  | allocateTarget pkt whenReady order allocOnFill =>
    obtain ⟨m, hm, hs⟩ := bind_eq_ok.mp hs
    cases hs
    obtain ⟨hservice, hlists⟩ := allocateTarget_spec hm
    refine h.of_allocated hphase hphase rfl rfl hservice fun halone => ?_
    show Alone m.targets.keys
    rcases hlists with ⟨ht, -⟩ | ⟨ht, -, -, hplain, hhead⟩
    · rw [ht]
      exact halone
    · rw [ht]
      exact halone.append_plain hplain hhead
  | handleSnoop pkt curTick order =>
    obtain ⟨⟨b, pkt', m⟩, hm, hs⟩ := bind_eq_ok.mp hs
    cases hs
    have hsnoop := handleSnoop_spec hm
    refine h.of_allocated hphase hphase rfl rfl hsnoop.inService fun halone => ?_
    show Alone m.targets.keys
    rcases hsnoop.targets with ht | ⟨k, hk, ht⟩
    · rw [ht]
      exact halone
    · rw [ht]
      exact halone.append_other (by rw [fromCPU, hk]; rfl)
  | markInService isForward pendingModifiedResp =>
    obtain ⟨m, hm, hs⟩ := bind_eq_ok.mp hs
    cases hs
    obtain ⟨ht, -, -⟩ := markInService_spec hm
    refine ⟨?_, fun _ => rfl, h.answered⟩
    have htargets := h.targets
    rw [hphase] at htargets
    show Isolates s.phase m.targets.keys
    rw [hphase, ht]
    exact htargets
  | setDownstreamPending =>
    cases hs
    exact h.of_allocated hphase hphase rfl rfl rfl id
  | clearDownstreamPending =>
    obtain ⟨m, hm, hs⟩ := bind_eq_ok.mp hs
    cases hs
    have hkeep := clearDownstreamPending_spec hm
    refine h.of_allocated hphase hphase rfl rfl hkeep.inService fun halone => ?_
    show Alone m.targets.keys
    rw [hkeep.targets]
    exact halone
  | recvTimingResp r =>
    obtain ⟨_, hservice, hs⟩ := bind_eq_ok.mp hs
    obtain ⟨_, _, hs⟩ := bind_eq_ok.mp hs
    obtain ⟨_, _, hs⟩ := bind_eq_ok.mp hs
    obtain ⟨_, _, hs⟩ := bind_eq_ok.mp hs
    cases hs
    have htargets := h.targets
    rw [hphase] at htargets
    refine ⟨htargets, fun _ => h.sent ?_, h.answered⟩
    unfold Outstanding
    rw [hphase]
    exact require_eq_ok.mp hservice
  | _ => cases hs

theorem serve_isolated {r : Response} (h : Isolated s) (hphase : s.phase = .serviceTargets r)
    (hs : s.serve r = .ok s') : Isolated s' := by
  obtain ⟨⟨ready, m⟩, hm, hs⟩ := bind_eq_ok.mp hs
  cases hs
  obtain ⟨-, -, -, honly⟩ := extractServiceableTargets_spec hm
  have htargets := h.targets
  rw [hphase] at htargets
  obtain ⟨hready, hleft⟩ := honly htargets
  refine ⟨hleft, fun hout => hout.elim, h.answered.append fun before a after heq hmaint => ?_⟩
  obtain ⟨hnil, hsent⟩ := answers_onlyFirst hready heq hmaint
  refine ⟨hnil, hsent.trans (h.sent ?_)⟩
  unfold Outstanding
  rw [hphase]
  trivial

theorem finish_isolated {r : Response} {curTick : ℕ} (h : Isolated s)
    (hphase : s.phase = .promoteDeferredTargets r) (hs : s.finish curTick = .ok s') :
    Isolated s' := by
  have htargets := h.targets
  rw [hphase] at htargets
  unfold finish at hs
  rcases hp : s.mshr.promoteDeferredTargets curTick with ⟨_ | _, m⟩
  · rw [hp] at hs
    obtain ⟨rfl, hempty, -⟩ := promoteDeferredTargets_false hp
    obtain ⟨m, hm, hs⟩ := bind_eq_ok.mp hs
    cases hs
    obtain ⟨_, _, hm⟩ := bind_eq_ok.mp hm
    obtain ⟨_, _, hm⟩ := bind_eq_ok.mp hm
    cases hm
    exact ⟨hempty, fun hout => hout.elim, h.answered⟩
  · rw [hp] at hs
    obtain ⟨moved, -, halone⟩ := promoteDeferredTargets_true hp
    obtain ⟨_, _, hs⟩ := bind_eq_ok.mp hs
    cases hs
    exact ⟨halone htargets, fun hout => absurd hout Bool.false_ne_true, h.answered⟩

/-- A promotion that moves no cache maintenance request leaves at most the first target to be
one. -/
theorem onlyFirst_promotes {m m' : MSHR} {moved : List Target} (hm : Promotes moved m m')
    (hmoved : ∀ t ∈ moved, t.pkt.req.isCacheMaintenance = false) (h : OnlyFirst m.targets.keys) :
    OnlyFirst m'.targets.keys := by
  rw [hm.targets]
  refine h.append fun k hk hmaint => ?_
  obtain ⟨t, ht, rfl⟩ := List.mem_map.mp hk
  exact Bool.false_ne_true ((hmoved t ht).symm.trans hmaint.2)

/-- **One operation keeps cache maintenance requests apart**, unless it promotes one. -/
theorem step_isolated (h : Isolated s)
    (hmoved : ∀ t ∈ s.promotedNext, t.pkt.req.isCacheMaintenance = false) (hs : s.step op = .ok s')
    :
    Isolated s' := by
  have htargets := h.targets
  have hsent := h.sent
  unfold Outstanding at hsent
  unfold promotedNext at hmoved
  unfold step at hs
  split at hs
  · exact start_isolated h hs
  · next hphase => exact operate_isolated h hphase hs
  · next r _ hphase =>
      rw [hphase] at htargets hmoved hsent
      dsimp only at hmoved
      split_ifs at hs hmoved
      · obtain ⟨m, hm, hs⟩ := bind_eq_ok.mp hs
        cases hs
        exact ⟨onlyFirst_promotes (promoteReadable_spec hm) hmoved htargets.1,
          fun _ => hsent trivial, h.answered⟩
      · cases hs
        exact ⟨htargets.1, fun _ => hsent trivial, h.answered⟩
  · next r _ hphase =>
      rw [hphase] at htargets hmoved hsent
      dsimp only at hmoved
      split_ifs at hs hmoved
      · obtain ⟨m, hm, hs⟩ := bind_eq_ok.mp hs
        cases hs
        exact ⟨onlyFirst_promotes (promoteWritable_spec hm) hmoved htargets,
          fun _ => hsent trivial, h.answered⟩
      · cases hs
        exact ⟨htargets, fun _ => hsent trivial, h.answered⟩
  · next r _ hphase => exact serve_isolated h hphase hs
  · next hphase => exact finish_isolated h hphase hs
  · cases hs

/-! ## Runs -/

/-- The operation does not promote a cache maintenance request by `promoteReadable` or
`promoteWritable`. -/
def LeavesMaintenance (s : CacheMSHR) (_ : MshrOp) : Prop :=
  ∀ t ∈ s.promotedNext, t.pkt.req.isCacheMaintenance = false

instance (s : CacheMSHR) (op : MshrOp) : Decidable (LeavesMaintenance s op) :=
  inferInstanceAs (Decidable (∀ t ∈ s.promotedNext, _))

/-- The targets of a list that come from the CPU. -/
def requests (l : TargetList) : List Target := l.targets.filter (·.source = .FromCPU)

/-- The response is being handled and deferred targets may have been promoted. -/
def promoting (s : CacheMSHR) : Bool :=
  match s.phase with
  | .promoteWritable _ | .serviceTargets _ => true
  | _ => false

theorem orders_keys (l : TargetList) : orders l.keys = (requests l).map Target.order := by
  rw [orders, TargetList.keys, filter_fromCPU_map_key, List.map_map]
  rfl

theorem requests_head (h : OnlyFirst (ts.map Target.key)) {t : Target}
    (ht : t ∈ ts.filter (·.source = .FromCPU)) (hm : t.pkt.req.isCacheMaintenance = true) :
    ts.filter (·.source = .FromCPU) = t :: ts.tail.filter (·.source = .FromCPU) ∧
      ts.head? = some t := by
  obtain ⟨hmem, hsource⟩ := List.mem_filter.mp ht
  cases ts with
  | nil => cases hmem
  | cons t' ts =>
    rcases List.mem_cons.mp hmem with rfl | hmem
    · exact ⟨List.filter_cons_of_pos hsource, rfl⟩
    · exact absurd ⟨hsource, hm⟩ (h t.key (List.mem_map_of_mem hmem))

theorem requests_alone (h : Alone (ts.map Target.key)) {t : Target}
    (ht : t ∈ ts.filter (·.source = .FromCPU)) (hm : t.pkt.req.isCacheMaintenance = true) :
    ts.filter (·.source = .FromCPU) = [t] := by
  obtain ⟨hcons, hhead⟩ := requests_head h.1 ht hm
  have hsource := (List.mem_filter.mp ht).2
  have hnil := h.2 t.key (by rw [List.head?_map, hhead]; rfl) ⟨hsource, hm⟩
  rw [← List.map_tail, filter_fromCPU_map_key, List.map_eq_nil_iff] at hnil
  rw [hcons, hnil]

/-- In every phase a cache maintenance request is the first of the targets from the CPU, and the
only one except while a response is promoting targets. -/
theorem Isolated.requests (h : Isolated s) {t : Target} (ht : t ∈ requests s.mshr.targets)
    (hm : t.pkt.req.isCacheMaintenance = true) :
    (CacheMSHR.requests s.mshr.targets).head? = some t ∧
      (s.promoting = false → CacheMSHR.requests s.mshr.targets = [t]) := by
  have htargets := h.targets
  have hfirst (honly : OnlyFirst s.mshr.targets.keys) :
      (CacheMSHR.requests s.mshr.targets).head? = some t := by
    rw [CacheMSHR.requests, (requests_head honly ht hm).1]
    rfl
  have hnone (hall : ∀ k ∈ s.mshr.targets.keys, ¬k.Maintains) : False := by
    obtain ⟨hmem, hsource⟩ := List.mem_filter.mp ht
    exact hall t.key (List.mem_map_of_mem hmem) ⟨hsource, hm⟩
  unfold promoting
  cases hphase : s.phase <;> rw [hphase] at htargets
  case free =>
    have hkeys : s.mshr.targets.keys = [] := htargets
    exact (hnone (hkeys ▸ fun _ hk => absurd hk List.not_mem_nil)).elim
  case allocated => exact ⟨hfirst htargets.1, fun _ => requests_alone htargets ht hm⟩
  case promoteReadable => exact ⟨hfirst htargets.1, fun _ => requests_alone htargets ht hm⟩
  case promoteWritable => exact ⟨hfirst htargets, nofun⟩
  case serviceTargets => exact ⟨hfirst htargets, nofun⟩
  case promoteDeferredTargets => exact (hnone htargets).elim

/-- **The targets from the CPU are answered in the order of their arrival**, none lost or twice.
As long as no cache maintenance request is promoted before it has been sent, such a request is the
first of the targets from the CPU in `targets`, alone except behind its own response, and it is
answered by a response to a request that was sent when all earlier targets had been answered. -/
theorem targets_in_order {ops : List MshrOp} {s : CacheMSHR} (h : run step {} ops = .ok s) :
    s.arrived = s.answered.map Answer.order ++
        (requests s.mshr.targets ++ requests s.mshr.deferredTargets).map Target.order ∧
      (Admitted LeavesMaintenance step {} ops →
        (∀ t ∈ requests s.mshr.targets, t.pkt.req.isCacheMaintenance = true →
          (requests s.mshr.targets).head? = some t ∧
            (s.promoting = false → requests s.mshr.targets = [t])) ∧
        InTurn s.answered) := by
  constructor
  · have hinit : Ordered {} := ⟨fun _ hk => absurd hk List.not_mem_nil, rfl⟩
    have hall : Admitted (fun _ _ => True) step ({} : CacheMSHR) ops :=
      admitted_of_forall fun _ _ _ => trivial
    have hord := run_invariant (fun _ _ _ ht _ => step_ordered ht) hinit hall h
    rw [hord.arrived, orders_keys, orders_keys, List.map_append, List.append_assoc]
  · intro hleaves
    have hinit : Isolated {} :=
      ⟨rfl, fun _ => rfl, fun before a after heq _ => absurd heq (by simp)⟩
    have hiso := run_invariant (fun _ _ _ ht hl => step_isolated ht hl) hinit hleaves h
    exact ⟨fun t ht hm => hiso.requests ht hm, hiso.answered⟩

/-- A clean request to a register. -/
def cleanReq : MissPacket := { cmd := .CleanSharedReq, req := { clean := true } }

/-- The response to it, in a cache that has the block. -/
def cleanResp : Response :=
  { cmd := .CleanSharedResp, req := { clean := true }, blkValid := true, blkWritable := false }

/-- A clean request arrives behind a read and before another one, and its response promotes the
second read. -/
def readCleanRead : List MshrOp :=
  let filled : Response := { cmd := .ReadResp, blkValid := true, blkWritable := false }
  [.allocate 64 { cmd := .ReadSharedReq } 0 1 true, .markInService false false,
    .allocateTarget cleanReq 0 2 false, .allocateTarget { cmd := .ReadSharedReq } 0 3 true,
    .recvTimingResp filled, .next 0, .next 0, .next 0, .next 0,
    .markInService true false, .recvTimingResp cleanResp, .next 0, .next 0, .next 0]

theorem targets_in_order_readCleanRead :
    ∃ s, run step {} readCleanRead = .ok s ∧
      s.answered = [⟨1, false, []⟩, ⟨2, true, [1]⟩, ⟨3, false, [1]⟩] ∧
      s.arrived = s.answered.map Answer.order ++
        (requests s.mshr.targets ++ requests s.mshr.deferredTargets).map Target.order ∧
      InTurn s.answered := by
  obtain ⟨s, hs, ha⟩ : ∃ s, run step {} readCleanRead = .ok s ∧
      s.answered = [⟨1, false, []⟩, ⟨2, true, [1]⟩, ⟨3, false, [1]⟩] := by decide +kernel
  have hleaves : Admitted LeavesMaintenance step {} readCleanRead := by decide +kernel
  exact ⟨s, hs, ha, (targets_in_order hs).1, ((targets_in_order hs).2 hleaves).2⟩

/-- While the response to a clean request is handled, the read that was deferred behind it follows
it in `targets`. -/
theorem clean_not_alone :
    ∃ s, run step {}
      [.allocate 64 cleanReq 0 1 false, .allocateTarget { cmd := .ReadSharedReq } 0 2 true,
        .markInService true false, .recvTimingResp cleanResp, .next 0] = .ok s ∧
      (requests s.mshr.targets).map (fun t => (t.order, t.pkt.req.isCacheMaintenance)) =
        [(1, true), (2, false)] := by
  decide +kernel

end CacheMSHR

end Gem5.Mem
