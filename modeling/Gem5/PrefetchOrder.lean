/-
# The order of the prefetch queues

A prefetch queue is to be sorted by priority, with the older of two prefetches of the same priority
in front.  Then `getPacket` issues the oldest prefetch of the highest priority, and a full queue
loses the oldest one of the lowest.  `addToQueue` goes backwards over the entries of a lower
priority and inserts in front of the entry it stops at, which has the same or a higher priority: the
new entry is where it belongs only if that entry is the first one, or if nothing has been passed
(`ordered_insert_iff`).

The places of the list nodes are handed out in the order of the insertions, and tell which of two
prefetches is older.  `max_prefetch_requests_with_pending_translation` is a parameter of the
prefetcher that `addToQueue` does not look at: `queueSize` is the bound of both queues.
-/
import Gem5.PrefetchTranslation

open Runs

namespace Gem5.Prefetch

/-! ## Sorted queues -/

/-- `a` is to be issued before `b`. -/
def Node.Before (a b : Node) : Prop :=
  b.dp.priority < a.dp.priority ∨ a.dp.priority = b.dp.priority ∧ a.place < b.place

instance (a b : Node) : Decidable (a.Before b) := inferInstanceAs (Decidable (_ ∨ _))

theorem Node.Before.le {a b : Node} (h : a.Before b) : b.dp.priority ≤ a.dp.priority := by
  rcases h with h | ⟨h, _⟩
  · exact h.le
  · exact h.ge

/-- Sorted by priority, with insertion order among equal ones. -/
def Ordered (q : List Node) : Prop := q.Pairwise Node.Before

instance (q : List Node) : Decidable (Ordered q) := inferInstanceAs (Decidable (q.Pairwise _))

variable {q : List Node}

theorem Ordered.before (h : Ordered q) {i k : ℕ} {a b : Node} (hik : i < k) (ha : q[i]? = some a)
    (hb : q[k]? = some b) : a.Before b := by
  obtain ⟨hi, rfl⟩ := List.getElem?_eq_some_iff.mp ha
  obtain ⟨hk, rfl⟩ := List.getElem?_eq_some_iff.mp hb
  exact List.pairwise_iff_getElem.mp h i k hi hk hik

/-- The entries of at least a priority are in front of the others. -/
theorem Ordered.split (h : Ordered q) (priority : ℤ) :
    ∃ hi lo, q = hi ++ lo ∧ (∀ n ∈ hi, priority ≤ n.dp.priority) ∧
      ∀ n ∈ lo, n.dp.priority < priority := by
  induction q with
  | nil => exact ⟨[], [], rfl, fun _ h => absurd h List.not_mem_nil,
      fun _ h => absurd h List.not_mem_nil⟩
  | cons a q ih =>
    obtain ⟨hhead, htail⟩ := List.pairwise_cons.mp h
    by_cases ha : priority ≤ a.dp.priority
    · obtain ⟨hi, lo, rfl, hhi, hlo⟩ := ih htail
      refine ⟨a :: hi, lo, rfl, fun n hn => ?_, hlo⟩
      rcases List.mem_cons.mp hn with rfl | hn
      · exact ha
      · exact hhi n hn
    · refine ⟨[], a :: q, rfl, fun _ h => absurd h List.not_mem_nil, fun n hn => ?_⟩
      rcases List.mem_cons.mp hn with rfl | hn
      · exact not_le.mp ha
      · exact (hhead n hn).le.trans_lt (not_le.mp ha)

/-! ## Where `addToQueue` inserts -/

section Position

variable {dpp : DeferredPacket} {hi lo : List Node}

theorem above_eq_false (hhi : ∀ n ∈ hi, dpp.priority ≤ n.dp.priority) {i : ℕ}
    (hlt : i < hi.length) : above dpp (hi ++ lo) i = false := by
  unfold above
  rw [List.getElem?_append_left hlt, List.getElem?_eq_getElem hlt]
  exact decide_eq_false (not_lt.mpr (hhi _ (List.getElem_mem hlt)))

theorem above_eq_true (hlo : ∀ n ∈ lo, n.dp.priority < dpp.priority) {i : ℕ}
    (hlt : i < lo.length) : above dpp (hi ++ lo) (hi.length + i) = true := by
  unfold above
  rw [List.getElem?_append_right (Nat.le_add_right _ _), Nat.add_sub_cancel_left,
    List.getElem?_eq_getElem hlt]
  exact decide_eq_true (hlo _ (List.getElem_mem hlt))

/-- The loop stops at the last entry that is not passed, or at the head. -/
theorem spot_eq (hhi : ∀ n ∈ hi, dpp.priority ≤ n.dp.priority)
    (hlo : ∀ n ∈ lo, n.dp.priority < dpp.priority) {j : ℕ} (hj : j ≤ lo.length) :
    spot dpp (hi ++ lo) (hi.length + j) = hi.length - 1 := by
  induction j with
  | zero =>
    rw [Nat.add_zero]
    cases hlen : hi.length with
    | zero => rfl
    | succ k =>
      unfold spot
      rw [above_eq_false hhi (by omega), Bool.and_false, if_neg Bool.false_ne_true]
      rfl
  | succ j ih =>
    rw [← Nat.add_assoc]
    unfold spot
    rw [above_eq_true hlo (by omega), Bool.and_true]
    split_ifs with hzero
    · exact ih (by omega)
    · rw [decide_eq_true_eq, not_not] at hzero
      omega

/-- **Where a packet is inserted**: behind the entries of at least its priority if there is at most
one of them or no other, and else in front of the last of them. -/
theorem position_eq (hhi : ∀ n ∈ hi, dpp.priority ≤ n.dp.priority)
    (hlo : ∀ n ∈ lo, n.dp.priority < dpp.priority) :
    position dpp (hi ++ lo) =
      if lo = [] ∨ hi.length ≤ 1 then hi.length else hi.length - 1 := by
  have hspot : spot dpp (hi ++ lo) (hi ++ lo).length = hi.length - 1 := by
    rw [List.length_append]
    exact spot_eq hhi hlo (Nat.le_refl _)
  unfold position
  dsimp only
  rw [hspot]
  rcases List.eq_nil_or_concat lo with rfl | ⟨lo, last, rfl⟩
  · have hlast : (decide ((hi ++ []).length = 0) ||
        !above dpp (hi ++ []) ((hi ++ []).length - 1)) = true := by
      rcases List.eq_nil_or_concat hi with rfl | ⟨hi, last, rfl⟩
      · rfl
      · rw [above_eq_false hhi (by simp), Bool.not_false, Bool.or_true]
    rw [if_pos hlast, if_pos (.inl rfl), List.append_nil]
  · have hlast : above dpp (hi ++ lo.concat last) ((hi ++ lo.concat last).length - 1) = true := by
      have hlen : (hi ++ lo.concat last).length - 1 = hi.length + lo.length := by
        rw [List.length_append, List.length_concat]
        omega
      rw [hlen]
      exact above_eq_true hlo (by simp)
    rw [hlast, if_neg (by simp)]
    have hguard : (decide (hi.length - 1 = 0) &&
        !above dpp (hi ++ lo.concat last) (hi.length - 1)) = decide (hi.length = 1) := by
      rcases Nat.lt_trichotomy hi.length 1 with hlt | heq | hgt
      · have hhead : above dpp (hi ++ lo.concat last) (hi.length + 0) = true :=
          above_eq_true hlo (by simp)
        rw [show hi.length - 1 = hi.length + 0 by omega, hhead, Bool.not_true, Bool.and_false,
          decide_eq_false hlt.ne]
      · rw [above_eq_false hhi (by omega), heq]
        rfl
      · rw [decide_eq_false (by omega : ¬ hi.length - 1 = 0), decide_eq_false hgt.ne',
          Bool.false_and]
    rw [hguard]
    have hne : lo.concat last ≠ [] := by simp
    rcases Nat.lt_trichotomy hi.length 1 with hlt | heq | hgt
    · rw [if_neg (by simpa using hlt.ne), if_pos (.inr hlt.le)]
      omega
    · rw [if_pos (decide_eq_true heq), if_pos (.inr heq.le)]
      omega
    · rw [if_neg (by simpa using hgt.ne'), if_neg (not_or.mpr ⟨hne, not_le.mpr hgt⟩)]

end Position

/-- A packet of this priority is inserted where it belongs: no entry has a lower priority, or all
but the first one have. -/
def WellPlaced (priority : ℤ) (q : List Node) : Prop :=
  (∀ n ∈ q.getLast?, priority ≤ n.dp.priority) ∨ ∀ n ∈ q[1]?, n.dp.priority < priority

instance (q : List Node) (priority : ℤ) : Decidable (WellPlaced priority q) :=
  inferInstanceAs (Decidable (_ ∨ _))

theorem wellPlaced_iff {priority : ℤ} {hi lo : List Node}
    (hhi : ∀ n ∈ hi, priority ≤ n.dp.priority) (hlo : ∀ n ∈ lo, n.dp.priority < priority) :
    WellPlaced priority (hi ++ lo) ↔ lo = [] ∨ hi.length ≤ 1 := by
  constructor
  · rintro (hlast | hsecond)
    · rcases List.eq_nil_or_concat lo with rfl | ⟨lo, last, rfl⟩
      · exact .inl rfl
      · rw [List.concat_eq_append] at hlast hlo
        have hle := hlast last (by rw [← List.append_assoc, List.getLast?_concat]; rfl)
        exact absurd (hlo last List.mem_concat_self) (not_lt.mpr hle)
    · refine .inr (not_lt.mp fun htwo => ?_)
      have hget : (hi ++ lo)[1]? = some hi[1] := by
        rw [List.getElem?_append_left htwo, List.getElem?_eq_getElem htwo]
      exact absurd (hsecond _ hget) (not_lt.mpr (hhi _ (List.getElem_mem htwo)))
  · rintro (rfl | hone)
    · refine .inl fun n hn => hhi n ?_
      rw [List.append_nil] at hn
      exact List.mem_of_getLast? hn
    · refine .inr fun n hn => hlo n ?_
      rw [List.getElem?_append_right hone] at hn
      exact List.mem_of_getElem? hn

theorem insertIdx_append {α : Type*} (l l' : List α) (x : α) :
    (l ++ l').insertIdx l.length x = l ++ x :: l' := by
  induction l with
  | nil => rfl
  | cons a l ih => rw [List.cons_append, List.length_cons, List.insertIdx_succ_cons, ih]; rfl

/-- **When an insertion keeps a queue sorted.** -/
theorem ordered_insert_iff {place : ℕ} {dpp : DeferredPacket} (h : Ordered q)
    (hfresh : ∀ n ∈ q, n.place < place) :
    Ordered (q.insertIdx (position dpp q) ⟨place, dpp⟩) ↔ WellPlaced dpp.priority q := by
  obtain ⟨hi, lo, rfl, hhi, hlo⟩ := h.split dpp.priority
  rw [wellPlaced_iff hhi hlo, position_eq hhi hlo]
  constructor
  · intro hord
    by_contra hcond
    rw [if_neg hcond] at hord
    rw [not_or] at hcond
    rcases List.eq_nil_or_concat hi with rfl | ⟨hi, b, rfl⟩
    · exact absurd (Nat.zero_le 1) hcond.2
    · -- The new entry stands in front of `b`, which is older and has at least its priority.
      rw [List.concat_eq_append] at hord hhi hfresh
      rw [List.length_append, List.length_singleton, Nat.add_sub_cancel, List.append_assoc,
        insertIdx_append] at hord
      have hpair : Node.Before ⟨place, dpp⟩ b :=
        (List.pairwise_cons.mp (List.pairwise_append.mp hord).2.1).1 b List.mem_cons_self
      have hb : b ∈ hi ++ [b] := List.mem_concat_self
      rcases hpair with hlt | ⟨_, hlt⟩
      · exact absurd (hhi b hb) (not_le.mpr hlt)
      · exact absurd (hfresh b (List.mem_append_left _ hb)) (not_lt.mpr hlt.le)
  · intro hcond
    obtain ⟨hhiord, hloord, hcross⟩ := List.pairwise_append.mp h
    rw [if_pos hcond, insertIdx_append]
    refine List.pairwise_append.mpr ⟨hhiord, List.pairwise_cons.mpr ⟨fun n hn => ?_, hloord⟩,
      fun a ha b hb => ?_⟩
    · exact .inl (hlo n hn)
    · rcases List.mem_cons.mp hb with rfl | hb
      · rcases (hhi a ha).lt_or_eq with hlt | heq
        · exact .inl hlt
        · exact .inr ⟨heq.symm, hfresh a (List.mem_append_left _ ha)⟩
      · exact hcross a ha b hb

/-! ## What a full queue loses -/

/-- The oldest entry of the lowest priority. -/
def OldestLowest (q : List Node) (n : Node) : Prop :=
  ∀ m ∈ q, n.dp.priority ≤ m.dp.priority ∧ (n.dp.priority = m.dp.priority → n.place ≤ m.place)

/-- The loop goes back to the first entry of the last level of priority. -/
theorem oldest_spec (h : Ordered q) {it : ℕ} {n : Node} (hit : q[it]? = some n) :
    oldest q it ≤ it ∧ ∃ m, q[oldest q it]? = some m ∧ m.dp.priority = n.dp.priority ∧
      ∀ j < oldest q it, ∀ a ∈ q[j]?, m.dp.priority < a.dp.priority := by
  induction it generalizing n with
  | zero => exact ⟨Nat.le_refl _, n, hit, rfl, fun j hj => absurd hj (Nat.not_lt_zero j)⟩
  | succ it ih =>
    have hlt : it < q.length := Nat.lt_of_succ_lt (List.getElem?_eq_some_iff.mp hit).1
    have hprev : q[it]? = some q[it] := List.getElem?_eq_getElem hlt
    unfold oldest
    split_ifs with hsame
    · obtain ⟨hle, m, hm, hprio, hrest⟩ := ih hprev
      refine ⟨Nat.le_succ_of_le hle, m, hm, ?_, hrest⟩
      unfold priorityAt at hsame
      rw [hprev, hit, Option.map_some, Option.map_some, Option.some_inj] at hsame
      exact hprio.trans hsame
    · refine ⟨Nat.le_refl _, n, hit, rfl, fun j hj a ha => ?_⟩
      have hnext : n.dp.priority < q[it].dp.priority := by
        refine lt_of_le_of_ne (h.before (Nat.lt_succ_self it) hprev hit).le fun heq => hsame ?_
        unfold priorityAt
        rw [hprev, hit, Option.map_some, Option.map_some, heq]
      rcases Nat.lt_succ_iff_lt_or_eq.mp hj with hj | rfl
      · exact hnext.trans_le (h.before hj ha hprev).le
      · rw [hprev] at ha
        exact Option.some.inj ha ▸ hnext

/-- **What is removed from a full queue** is its oldest entry of the lowest priority. -/
theorem victim_oldestLowest (h : Ordered q) (hne : q ≠ []) :
    ∃ n, q[victim q]? = some n ∧ OldestLowest q n := by
  have hpos : 0 < q.length := List.length_pos_of_ne_nil hne
  have hlast : q[q.length - 1]? = some q[q.length - 1] := List.getElem?_eq_getElem (by omega)
  obtain ⟨hle, m, hm, hprio, hrest⟩ := oldest_spec h hlast
  refine ⟨m, hm, fun a ha => ?_⟩
  obtain ⟨j, hj⟩ := List.getElem?_of_mem ha
  rcases lt_trichotomy j (victim q) with hlt | rfl | hgt
  · have hhigher := hrest j hlt a hj
    exact ⟨hhigher.le, fun heq => absurd heq hhigher.ne⟩
  · obtain rfl := Option.some.inj (hm.symm.trans hj)
    exact ⟨le_rfl, fun _ => le_rfl⟩
  · have hge : m.dp.priority ≤ a.dp.priority := by
      rw [hprio]
      have hlen : j ≤ q.length - 1 := Nat.le_sub_one_of_lt (List.getElem?_eq_some_iff.mp hj).1
      rcases Nat.lt_or_eq_of_le hlen with hlt | heq
      · exact (h.before hlt hj hlast).le
      · rw [heq] at hj
        obtain rfl := Option.some.inj (hj.symm.trans hlast)
        exact le_rfl
    rcases h.before hgt hm hj with hlt | ⟨_, hplace⟩
    · exact absurd hge (not_le.mpr hlt)
    · exact ⟨hge, fun _ => hplace.le⟩

/-! ## The operations on the queues -/

/-- The parameters with the size meant for the queue of missing translations. -/
structure QueuedParams extends Params where
  missingTranslationQueueSize : ℕ

/-- The entries that `addToQueue` keeps. -/
def afterEviction (p : Params) (q : List Node) : List Node :=
  if q.length = p.queueSize then q.eraseIdx (victim q) else q

/-- What is done to the two queues: the parts of `notify` and `getPacket`, and the end of a
translation. -/
inductive QueueOp where
  | insert (env : Env) (pkt : Queued.Access) (new_pfi : PrefetchInfo) (priority : ℤ)
  | squash (pfi : PrefetchInfo)
  | startTranslation (env : Env) (place : ℕ)
  | answer (env : Env) (k : ℕ) (a : TlbAnswer)
  | issue

namespace Queued

/-- The part of `getPacket` that takes the first prefetch. -/
def issue (s : Queued) : Except PrefetchFail Queued :=
  match s.pfq with
  | [] => .ok s
  | front :: pfq => do
      require .noPacket front.dp.pkt.isSome
      return { s with pfq := pfq, issuedPrefetches := s.issuedPrefetches + 1 }

def op (p : Params) (s : Queued) : QueueOp → Except PrefetchFail Queued
  | .insert env pkt new_pfi priority => s.insert p env pkt new_pfi priority
  | .squash pfi => .ok (s.squash p pfi)
  | .startTranslation env place => s.startTranslation p env (fun _ => none) place
  | .answer env k a => do
      let t ← orFail .notStarted s.inTlb[k]?
      s.answer p env t a
  | .issue => s.issue

/-- Some operations lead from a state to another. -/
def Leads (p : Params) (s s' : Queued) : Prop := ∃ ops, run (op p) s ops = .ok s'

theorem Leads.refl (p : Params) (s : Queued) : Leads p s s := ⟨[], rfl⟩

variable {s s' : Queued} {env : Env}

theorem Leads.of_ok {p : Params} (h : (Except.ok s : Except PrefetchFail Queued) = .ok s') :
    Leads p s s' :=
  Except.ok.inj h ▸ .refl p s

theorem Leads.trans {p : Params} {s'' : Queued} (h : Leads p s s') (h' : Leads p s' s'') :
    Leads p s s'' := by
  obtain ⟨ops, hops⟩ := h
  obtain ⟨ops', hops'⟩ := h'
  exact ⟨ops ++ ops', (run_append_ok ops' hops).trans hops'⟩

theorem Leads.of_op {p : Params} {o : QueueOp} (h : s.op p o = .ok s') :
    Leads p s s' :=
  ⟨[o], run_cons_ok [] h⟩

/-- A translation that the TLB answers at once is started and ends. -/
theorem leads_startTranslation {p : Params} {tlb : ℕ → Option TlbAnswer} {place : ℕ}
    (h : s.startTranslation p env tlb place = .ok s') :
    Leads p s s' := by
  unfold startTranslation at h
  obtain ⟨n, hn, h⟩ := bind_eq_ok.mp h
  obtain ⟨r, hr, h⟩ := bind_eq_ok.mp h
  dsimp only at h
  have hstart : s.op p (.startTranslation env place) = _ >>= fun _ => _ >>= fun _ => _ := rfl
  rw [hn] at hstart
  change _ = orFail _ n.dp.translationRequest >>= _ at hstart
  rw [hr] at hstart
  change s.op p (.startTranslation env place) = (if _ then _ else _) at hstart
  split_ifs at h hstart with hongoing
  · cases h
    exact .of_op hstart
  · obtain ⟨_, hreq, h⟩ := bind_eq_ok.mp h
    change _ = require PrefetchFail.noTlb p.hasTlb >>= _ at hstart
    rw [hreq] at hstart
    cases ha : tlb r with
    | none =>
      rw [ha] at h
      cases h
      exact .of_op hstart
    | some a =>
      rw [ha] at h
      refine .trans (.of_op hstart) (.of_op (o := .answer env s.inTlb.length a) ?_)
      refine bind_eq_ok.mpr ⟨_, orFail_eq_ok.mpr ?_, h⟩
      exact List.getElem?_concat_length

theorem leads_processFrom {p : Params} {tlb : ℕ → Option TlbAnswer} (max : ℕ) {it : Option ℕ}
    (h : s.processFrom p env tlb max it = .ok s') :
    Leads p s s' := by
  induction max generalizing s it with
  | zero =>
    unfold processFrom at h
    exact .of_ok h
  | succ max ih =>
    cases it with
    | none =>
      unfold processFrom at h
      exact .of_ok h
    | some place =>
      unfold processFrom at h
      obtain ⟨t, ht, h⟩ := bind_eq_ok.mp h
      exact (leads_startTranslation ht).trans (ih h)

theorem leads_insertions {p : Params} {pkt : Access} (cs : List (PrefetchInfo × ℤ))
    (h : run (insertStep p env pkt) s cs = .ok s') : Leads p s s' := by
  induction cs generalizing s with
  | nil => exact .of_ok h
  | cons c cs ih =>
    cases ht : insertStep p env pkt s c with
    | error e =>
      rw [run_cons_error cs ht] at h
      cases h
    | ok t =>
      rw [run_cons_ok cs ht] at h
      exact (Leads.of_op (o := .insert env pkt c.1 c.2) ht).trans (ih h)

/-- **Every step of the prefetcher is made of these operations.** -/
theorem leads_step {p : Params} {a : PrefetchAction} (h : s.step p a = .ok s') :
    Leads p s s' := by
  cases a with
  | notify env pkt pfi addresses =>
    exact (Leads.of_op (o := .squash pfi) rfl).trans (leads_insertions _ h)
  | answer env k a => exact .of_op (o := .answer env k a) h
  | getPacket env tlb =>
    obtain ⟨⟨t, pkt⟩, hget, hs'⟩ := bind_eq_ok.mp h
    cases hs'
    unfold getPacket at hget
    obtain ⟨s₁, hrefill, hget⟩ := bind_eq_ok.mp hget
    have hfirst : Leads p s s₁ := by
      unfold refill at hrefill
      split_ifs at hrefill
      · exact leads_processFrom _ hrefill
      · exact .of_ok hrefill
    refine hfirst.trans ?_
    rcases hpfq : s₁.pfq with _ | ⟨front, pfq⟩
    · rw [hpfq] at hget
      obtain ⟨rfl, _⟩ := Prod.ext_iff.mp (Except.ok.inj hget)
      exact .refl p s₁
    · rw [hpfq] at hget
      obtain ⟨u, hreq, hget⟩ := bind_eq_ok.mp hget
      obtain ⟨s₂, hprocess, hget⟩ := bind_eq_ok.mp hget
      cases hget
      refine .trans (.of_op (o := .issue) ?_) (leads_processFrom _ hprocess)
      show s₁.issue = _
      unfold issue
      rw [hpfq]
      exact bind_eq_ok.mpr ⟨u, hreq, rfl⟩

/-! ## Conditions on an operation -/

/-- The priority with which the end of a successful translation puts a packet into `pfq`. -/
def completed (p : Params) (env : Env) (s : Queued) (place : ℕ) : Option ℤ := do
  let it ← s.entry place
  let r ← it.dp.translationRequest
  let req ← s.requests[r]?
  let paddr ← req.paddr
  if p.cacheSnoop && env.redundant paddr it.dp.pfInfo.secure then none
  else some it.dp.priority

/-- A prefetch that is inserted is not queued yet. -/
def NotQueued (s : Queued) : QueueOp → Prop
  | .insert _ _ pfi _ =>
      (findAddr pfi s.pfq).1 = false ∧ (findAddr pfi s.pfqMissingTranslation).1 = false
  | _ => True

/-- An inserted prefetch finds its place in the queue it is put into, and `pfqMissingTranslation`
the room that it is meant to have. -/
def InsertFits (p : QueuedParams) (env : Env) (pkt : Access) (s : Queued) (pfi : PrefetchInfo)
    (priority : ℤ) : Prop :=
  match target p.toParams pkt pfi with
  | .ok (.physical paddr) => (p.cacheSnoop && env.redundant paddr pfi.secure) = false →
      WellPlaced priority (afterEviction p.toParams s.pfq)
  | .ok (.translate _) =>
      WellPlaced priority (afterEviction p.toParams s.pfqMissingTranslation) ∧
        (afterEviction p.toParams s.pfqMissingTranslation).length < p.missingTranslationQueueSize
  | _ => True

/-- So does a packet that has been translated. -/
def AnswerFits (p : QueuedParams) (env : Env) (s : Queued) (t : Translation) (a : TlbAnswer) :
    Prop :=
  a ≠ .fault → ∀ priority ∈ (s.filled t a).completed p.toParams env t.place,
    WellPlaced priority (afterEviction p.toParams s.pfq)

/-- **The condition on an operation.** -/
def Fits (p : QueuedParams) (s : Queued) : QueueOp → Prop
  | .insert env pkt pfi priority => InsertFits p env pkt s pfi priority
  | .answer env k a => ∀ t ∈ s.inTlb[k]?, AnswerFits p env s t a
  | _ => True

/-! ## The invariant -/

/-- The failures of a full queue. -/
def NotFull (e : PrefetchFail) : Prop := e ≠ .fullAndEmpty ∧ e ≠ .fullWithOne

instance : DecidablePred NotFull := fun _ => inferInstanceAs (Decidable (_ ∧ _))

/-- Both queues are sorted and within their sizes, and the places in them have been used. -/
structure InOrder (p : QueuedParams) (s : Queued) : Prop where
  pfq : Ordered s.pfq
  missing : Ordered s.pfqMissingTranslation
  pfqPlaces : ∀ n ∈ s.pfq, n.place < s.nextPlace
  missingPlaces : ∀ n ∈ s.pfqMissingTranslation, n.place < s.nextPlace
  pfqSize : s.pfq.length ≤ p.queueSize
  missingSize : s.pfqMissingTranslation.length ≤ p.missingTranslationQueueSize

theorem inOrder_init (p : QueuedParams) : InOrder p init :=
  ⟨.nil, .nil, nofun, nofun, Nat.zero_le _, Nat.zero_le _⟩

/-- Entries may go. -/
theorem InOrder.sublist {p : QueuedParams} (h : InOrder p s) (hpfq : s'.pfq.Sublist s.pfq)
    (hmissing : s'.pfqMissingTranslation.Sublist s.pfqMissingTranslation)
    (hnext : s'.nextPlace = s.nextPlace) : InOrder p s' where
  pfq := h.pfq.sublist hpfq
  missing := h.missing.sublist hmissing
  pfqPlaces := fun n hn => hnext ▸ h.pfqPlaces n (hpfq.subset hn)
  missingPlaces := fun n hn => hnext ▸ h.missingPlaces n (hmissing.subset hn)
  pfqSize := hpfq.length_le.trans h.pfqSize
  missingSize := hmissing.length_le.trans h.missingSize

theorem setOngoing_eq_map (q : List Node) (place : ℕ) (b : Bool) : ∃ f : Node → Node,
    (∀ n, (f n).place = n.place ∧ (f n).dp.priority = n.dp.priority ∧
      (f n).dp.translationRequest = n.dp.translationRequest ∧ (f n).dp.pfInfo = n.dp.pfInfo) ∧
    ∀ s : Queued, s.pfqMissingTranslation = q →
      (s.setOngoing place b).pfqMissingTranslation = q.map f := by
  refine ⟨fun n => if n.place = place then
    { n with dp := { n.dp with ongoingTranslation := b } } else n, fun n => ?_, ?_⟩
  · dsimp only
    split_ifs <;> exact ⟨rfl, rfl, rfl, rfl⟩
  · rintro s rfl
    rfl

/-- Marking a packet as being translated changes nothing here. -/
theorem InOrder.setOngoing {p : QueuedParams} (h : InOrder p s) (place : ℕ) (b : Bool) :
    InOrder p (s.setOngoing place b) := by
  obtain ⟨f, hf, hmap⟩ := setOngoing_eq_map s.pfqMissingTranslation place b
  have hmissing := hmap s rfl
  refine ⟨h.pfq, ?_, h.pfqPlaces, fun n hn => ?_, h.pfqSize, ?_⟩
  · rw [hmissing, Ordered, List.pairwise_map]
    refine h.missing.imp fun {a b} hab => ?_
    unfold Node.Before
    rw [(hf a).1, (hf b).1, (hf a).2.1, (hf b).2.1]
    exact hab
  · rw [hmissing] at hn
    obtain ⟨m, hm, rfl⟩ := List.mem_map.mp hn
    rw [(hf m).1]
    exact h.missingPlaces m hm
  · rw [hmissing, List.length_map]
    exact h.missingSize

theorem completed_setOngoing (p : Params) (env : Env) (s : Queued) (place : ℕ) (b : Bool)
    (place' : ℕ) : (s.setOngoing place b).completed p env place' = s.completed p env place' := by
  obtain ⟨f, hf, hmap⟩ := setOngoing_eq_map s.pfqMissingTranslation place b
  have hentry : (s.setOngoing place b).entry place' = (s.entry place').map f := by
    unfold entry
    rw [hmap s rfl, List.find?_map]
    congr 2
    funext n
    rw [Function.comp_apply, (hf n).1]
  unfold completed
  rw [hentry]
  cases s.entry place' with
  | none => rfl
  | some n =>
    simp only [Option.map_some, Option.bind_eq_bind, Option.bind_some, (hf n).2.1, (hf n).2.2.1,
      (hf n).2.2.2]
    rfl

/-! ## Adding to a queue -/

theorem afterEviction_sublist (p : Params) (q : List Node) : (afterEviction p q).Sublist q := by
  unfold afterEviction
  split_ifs
  · exact List.eraseIdx_sublist _ _
  · exact .refl q

theorem length_afterEviction {p : Params} {q : List Node} (hsize : q.length ≤ p.queueSize)
    (hpos : 0 < p.queueSize) : (afterEviction p q).length < p.queueSize := by
  unfold afterEviction
  split_ifs with hfull
  · have hvictim : victim q < q.length := by
      have hle : ∀ it, oldest q it ≤ it := by
        intro it
        induction it with
        | zero => exact Nat.le_refl _
        | succ it ih =>
          unfold oldest
          split_ifs
          · exact Nat.le_succ_of_le ih
          · exact Nat.le_refl _
      have := hle (q.length - 1)
      unfold victim
      omega
    rw [List.length_eraseIdx_of_lt hvictim]
    omega
  · omega

/-- **An insertion where the packet belongs** keeps the queue sorted and within its size. -/
theorem addToQueue_inOrder {p : Params} (hsize : 2 ≤ p.queueSize) {q : List Node} {place : ℕ}
    {dpp : DeferredPacket} (hord : Ordered q) (hfresh : ∀ n ∈ q, n.place < place)
    (hplaced : WellPlaced dpp.priority (afterEviction p q)) :
    Ends (fun q' => Ordered q' ∧ (∀ n ∈ q', n.place < place + 1) ∧
        q'.length ≤ (afterEviction p q).length + 1) NotFull (addToQueue p q place dpp) := by
  have hsub := afterEviction_sublist p q
  have hdone : Ordered ((afterEviction p q).insertIdx (position dpp (afterEviction p q))
        ⟨place, dpp⟩) ∧
      (∀ n ∈ (afterEviction p q).insertIdx (position dpp (afterEviction p q)) ⟨place, dpp⟩,
        n.place < place + 1) ∧
      ((afterEviction p q).insertIdx (position dpp (afterEviction p q)) ⟨place, dpp⟩).length ≤
        (afterEviction p q).length + 1 := by
    refine ⟨(ordered_insert_iff (hord.sublist hsub) fun n hn => hfresh n (hsub.subset hn)).mpr
      hplaced, fun n hn => ?_, List.length_insertIdx_le_succ⟩
    rcases List.eq_or_mem_of_mem_insertIdx hn with rfl | hn
    · exact Nat.lt_succ_self _
    · exact Nat.lt_succ_of_lt (hfresh n (hsub.subset hn))
  unfold addToQueue
  unfold afterEviction at hdone ⊢
  split_ifs at hdone ⊢ with hfull
  · rw [require_ok (decide_eq_true (by omega)), require_ok (decide_eq_true (by omega))]
    exact hdone
  · exact hdone

theorem InOrder.addToPfq {p : QueuedParams} (hsize : 2 ≤ p.queueSize) (h : InOrder p s)
    (dpp : DeferredPacket) (hplaced : WellPlaced dpp.priority (afterEviction p.toParams s.pfq)) :
    Ends (InOrder p) NotFull (s.addToPfq p.toParams dpp) := by
  refine (addToQueue_inOrder hsize h.pfq h.pfqPlaces hplaced).bind fun q hq => ?_
  obtain ⟨hord, hplaces, hlen⟩ := hq
  refine ⟨hord, h.missing, hplaces, fun n hn => (h.missingPlaces n hn).trans (Nat.lt_succ_self _),
    hlen.trans (length_afterEviction h.pfqSize (by omega)), h.missingSize⟩

theorem InOrder.addToMissing {p : QueuedParams} (hsize : 2 ≤ p.queueSize) (h : InOrder p s)
    {dpp : DeferredPacket}
    (hplaced : WellPlaced dpp.priority (afterEviction p.toParams s.pfqMissingTranslation))
    (hroom : (afterEviction p.toParams s.pfqMissingTranslation).length <
      p.missingTranslationQueueSize) :
    Ends (InOrder p) NotFull (s.addToMissing p.toParams dpp) := by
  refine (addToQueue_inOrder hsize h.missing h.missingPlaces hplaced).bind fun q hq => ?_
  obtain ⟨hord, hplaces, hlen⟩ := hq
  exact ⟨h.pfq, hord, fun n hn => (h.pfqPlaces n hn).trans (Nat.lt_succ_self _), hplaces,
    h.pfqSize, hlen.trans hroom⟩

/-! ## One operation -/

theorem ends_orFail {α : Type} {E : PrefetchFail → Prop} {e : PrefetchFail} (he : E e)
    (o : Option α) : Ends (fun a => o = some a) E (orFail e o) := by
  cases o with
  | none => exact he
  | some a => exact rfl

/-- The end of a translation. -/
theorem InOrder.translationComplete {p : QueuedParams} (hsize : 2 ≤ p.queueSize) (h : InOrder p s)
    {place : ℕ} {failed : Bool}
    (hplaced : failed = false → ∀ priority ∈ s.completed p.toParams env place,
      WellPlaced priority (afterEviction p.toParams s.pfq)) :
    Ends (fun x => InOrder p x.1) NotFull (s.translationComplete p.toParams env place failed) := by
  have herase {t : Queued} (ht : InOrder p t)
      (hsame : t.pfqMissingTranslation = s.pfqMissingTranslation) :
      InOrder p { t with
        pfqMissingTranslation := s.pfqMissingTranslation.eraseP (·.place = place) } :=
    ht.sublist (.refl _) (hsame ▸ List.eraseP_sublist) rfl
  unfold Queued.translationComplete
  refine (ends_orFail (by decide) _).bind fun it hit => ?_
  cases failed with
  | true => exact herase h rfl
  | false =>
    rw [if_neg Bool.false_ne_true]
    refine (ends_orFail (by decide) _).bind fun r hr => ?_
    refine (ends_orFail (by decide) _).bind fun req hreq => ?_
    refine (ends_orFail (by decide) _).bind fun paddr hpaddr => ?_
    split_ifs with hredundant
    · exact herase h rfl
    · have hcompleted : s.completed p.toParams env place = some it.dp.priority := by
        unfold completed
        rw [hit, Option.bind_eq_bind, Option.bind_some, hr, Option.bind_eq_bind,
          Option.bind_some, hreq, Option.bind_eq_bind, Option.bind_some, hpaddr,
          Option.bind_eq_bind, Option.bind_some, if_neg hredundant]
      have hadd := h.addToPfq hsize
        (it.dp.createPkt p.toParams paddr (env.curTick + p.clockPeriod * p.latency))
        (hplaced rfl _ hcompleted)
      have hboth := hadd.and (addToPfq_ends p.toParams s _)
      refine (hboth.mono_error fun e he => he.1).bind fun t ht => ?_
      obtain ⟨ht, pfq, rfl⟩ := ht
      exact herase ht rfl

theorem InOrder.answer {p : QueuedParams} (hsize : 2 ≤ p.queueSize) (h : InOrder p s)
    {t : Translation} {a : TlbAnswer} (hplaced : AnswerFits p env s t a) :
    Ends (InOrder p) NotFull (s.answer p.toParams env t a) := by
  have hfilled : InOrder p (s.filled t a) := by
    cases a with
    | fault => exact h.sublist (.refl _) (.refl _) rfl
    | translated paddr => exact h.sublist (.refl _) (.refl _) rfl
  have hpfq : (s.filled t a).pfq = s.pfq := by cases a <;> rfl
  unfold Queued.answer finish
  refine Ends.bind (P := fun x : Queued × Option DeferredPacket => InOrder p x.1) ?_
    fun x hx => hx.sublist (.refl _) (.refl _) rfl
  refine (ends_orFail (by decide) _).bind fun n _ => (ends_require (by decide)).bind fun _ _ => ?_
  refine (hfilled.setOngoing t.place false).translationComplete hsize fun ha priority hp => ?_
  rw [completed_setOngoing] at hp
  change WellPlaced priority (afterEviction p.toParams (s.filled t a).pfq)
  rw [hpfq]
  exact hplaced (of_decide_eq_false ha) priority hp

theorem InOrder.startTranslation {p : QueuedParams} (h : InOrder p s) (env : Env) (place : ℕ) :
    Ends (InOrder p) NotFull (s.startTranslation p.toParams env (fun _ => none) place) := by
  unfold Queued.startTranslation
  refine (ends_orFail (by decide) _).bind fun n _ => (ends_orFail (by decide) _).bind fun r _ => ?_
  split_ifs
  · exact h
  · refine (ends_require (by decide)).bind fun _ _ => ?_
    exact (h.setOngoing place true).sublist (.refl _) (.refl _) rfl

theorem notFull_of_target (p : Params) (pkt : Access) (pfi : PrefetchInfo) :
    Ends (fun t => target p pkt pfi = .ok t) NotFull (target p pkt pfi) := by
  have hrequest : ∀ addr c, Ends (fun _ => True) NotFull (createPrefetchRequest p addr pfi c) := by
    intro addr c
    unfold createPrefetchRequest
    exact (ends_require (by decide)).bind fun _ _ => trivial
  have hends : Ends (fun _ => True) NotFull (target p pkt pfi) := by
    unfold target
    refine Ends.bind (P := fun _ => True) ?_ fun orig _ => ?_
    · unfold origAddr
      split_ifs
      · exact (ends_orFail (by decide) _).mono fun _ _ => trivial
      · exact (ends_orFail (by decide) _).mono fun _ _ => trivial
    · dsimp only
      split
      · split
        · exact (ends_orFail (by decide) _).bind fun _ _ => trivial
        · trivial
      · split
        · trivial
        · split
          · exact (hrequest _ _).bind fun _ _ => trivial
          · split
            · exact (hrequest _ _).bind fun _ _ => trivial
            · trivial
  cases ht : target p pkt pfi with
  | ok t => exact rfl
  | error e =>
    rw [ht] at hends
    exact hends

/-- An insertion. -/
theorem InOrder.insert {p : QueuedParams} (hsize : 2 ≤ p.queueSize) (h : InOrder p s) {pkt : Access}
    {pfi : PrefetchInfo} {priority : ℤ} (hnew : NotQueued s (.insert env pkt pfi priority))
    (hfits : InsertFits p env pkt s pfi priority) :
    Ends (InOrder p) NotFull (s.insert p.toParams env pkt pfi priority) := by
  have hsame : s.insert p.toParams env pkt pfi priority =
      s.enqueue p.toParams env pkt pfi priority := by
    unfold Queued.insert
    simp only [alreadyInQueue_of_not_found priority hnew.1,
      alreadyInQueue_of_not_found priority hnew.2, Bool.false_eq_true, if_false, ite_self]
  rw [hsame]
  unfold Queued.enqueue
  unfold InsertFits at hfits
  refine (notFull_of_target p.toParams pkt pfi).bind fun t ht => ?_
  rw [ht] at hfits
  cases t with
  | drop => exact h
  | physical paddr =>
    show Ends _ _ (if _ then _ else _)
    split_ifs with hredundant
    · exact h
    · exact h.addToPfq hsize _ (hfits (Bool.eq_false_iff.mpr hredundant))
  | translate req =>
    have hsame : InOrder p { s with requests := s.requests ++ [req] } :=
      h.sublist (.refl _) (.refl _) rfl
    exact hsame.addToMissing hsize hfits.1 hfits.2

/-- **One operation keeps both queues sorted.** -/
theorem InOrder.op {p : QueuedParams} (hsize : 2 ≤ p.queueSize) (h : InOrder p s) {o : QueueOp}
    (hnew : NotQueued s o) (hfits : Fits p s o) :
    Ends (InOrder p) NotFull (s.op p.toParams o) := by
  cases o with
  | insert env pkt pfi priority => exact h.insert hsize hnew hfits
  | squash pfi =>
    refine h.sublist ?_ ?_ ?_
    all_goals unfold Queued.squash; split_ifs
    · exact List.filter_sublist
    · exact .refl _
    all_goals exact .refl _
  | startTranslation env place => exact h.startTranslation env place
  | answer env k a =>
    refine (ends_orFail (by decide) _).bind fun t ht => ?_
    exact h.answer hsize (hfits t ht)
  | issue =>
    show Ends _ _ s.issue
    unfold issue
    rcases hpfq : s.pfq with _ | ⟨front, pfq⟩
    · exact h
    · refine (ends_require (by decide)).bind fun _ _ => ?_
      exact h.sublist (hpfq ▸ List.sublist_cons_self _ _) (.refl _) rfl

/-! ## Runs -/

/-- **The prefetch queues.**  In every run of insertions of prefetches that are not queued yet,
translations, demand squashes and issues, each of whose insertions finds its place and room:

* both queues stay sorted by priority with insertion order among equal ones, so that the prefetch
  that is issued next is the oldest one of the highest priority;
* what `addToQueue` would remove is the oldest entry of the lowest priority;
* both queues keep within their sizes, and no check of a full queue fails. -/
theorem queues_inOrder (p : QueuedParams) (hsize : 2 ≤ p.queueSize) (ops : List QueueOp)
    (hops : Admitted (fun s o => NotQueued s o ∧ Fits p s o) (op p.toParams) init ops) :
    Ends (fun s => Ordered s.pfq ∧ Ordered s.pfqMissingTranslation ∧
        (∀ front pfq, s.pfq = front :: pfq → ∀ n ∈ pfq, front.Before n) ∧
        (∀ q ∈ [s.pfq, s.pfqMissingTranslation], q ≠ [] →
          ∃ n, q[victim q]? = some n ∧ OldestLowest q n) ∧
        s.pfq.length ≤ p.queueSize ∧
        s.pfqMissingTranslation.length ≤ p.missingTranslationQueueSize)
      NotFull (run (op p.toParams) init ops) := by
  refine (run_ends (fun _ _ h ho => h.op hsize ho.1 ho.2) (inOrder_init p) hops).mono fun s h => ?_
  refine ⟨h.pfq, h.missing, fun front pfq hpfq => ?_, fun q hq hne => ?_, h.pfqSize, h.missingSize⟩
  · exact (List.pairwise_cons.mp (hpfq ▸ h.pfq)).1
  · rcases List.mem_cons.mp hq with rfl | hq
    · exact victim_oldestLowest h.pfq hne
    · obtain rfl := List.mem_singleton.mp hq
      exact victim_oldestLowest h.missing hne

instance (p : QueuedParams) (env : Env) (pkt : Access) (s : Queued) (pfi : PrefetchInfo)
    (prio : ℤ) : Decidable (InsertFits p env pkt s pfi prio) :=
  match h : target p.toParams pkt pfi with
  | .ok (.physical paddr) => decidable_of_iff ((p.cacheSnoop && env.redundant paddr pfi.secure) =
      false → WellPlaced prio (afterEviction p.toParams s.pfq)) (by rw [InsertFits, h])
  | .ok (.translate _) => decidable_of_iff (WellPlaced prio (afterEviction p.toParams
      s.pfqMissingTranslation) ∧ (afterEviction p.toParams s.pfqMissingTranslation).length <
        p.missingTranslationQueueSize) (by rw [InsertFits, h])
  | .ok .drop => .isTrue (by rw [InsertFits, h]; trivial)
  | .error _ => .isTrue (by rw [InsertFits, h]; trivial)

instance (p : QueuedParams) (env : Env) (s : Queued) (t : Translation) (a : TlbAnswer) :
    Decidable (AnswerFits p env s t a) :=
  inferInstanceAs (Decidable (_ → _))

instance (p : QueuedParams) (s : Queued) : DecidablePred (Fits p s)
  | .insert env pkt pfi priority =>
      inferInstanceAs (Decidable (InsertFits p env pkt s pfi priority))
  | .answer env k a => inferInstanceAs (Decidable (∀ t ∈ s.inTlb[k]?, AnswerFits p env s t a))
  | .squash _ => .isTrue trivial
  | .startTranslation _ _ => .isTrue trivial
  | .issue => .isTrue trivial

instance (s : Queued) : DecidablePred (NotQueued s)
  | .insert _ _ _ _ => inferInstanceAs (Decidable (_ ∧ _))
  | .answer _ _ _ => .isTrue trivial
  | .squash _ => .isTrue trivial
  | .startTranslation _ _ => .isTrue trivial
  | .issue => .isTrue trivial

/-- A prefetcher with the given sizes. -/
def sizedParams (queueSize missingTranslationQueueSize : ℕ) : QueuedParams :=
  { testParams queueSize with missingTranslationQueueSize := missingTranslationQueueSize }

/-- An access at `0x1000`, and prefetches of a block of its page and of the first block of a page.
-/
def testAccess : Access := ⟨some 0x1000, some 0x8000, some 0⟩

def blockInfo (block : ℕ) : PrefetchInfo := ⟨BitVec.ofNat 64 (4096 + 64 * block), 0x40, true, false⟩

def pageInfo (page : ℕ) : PrefetchInfo := ⟨BitVec.ofNat 64 (4096 * page), 0x40, true, false⟩

def nearby (block : ℕ) (priority : ℤ) : QueueOp :=
  .insert testEnv testAccess (blockInfo block) priority

def faraway (page : ℕ) (priority : ℤ) : QueueOp :=
  .insert testEnv testAccess (pageInfo page) priority

/-- Two levels of priority, a full queue, and a translation. -/
def wellPlaced : List QueueOp :=
  [nearby 1 5, nearby 2 1, nearby 3 5, nearby 4 1, faraway 2 7, .startTranslation testEnv 4, .issue,
    .answer testEnv 0 (.translated 0x9000)]

theorem queues_inOrder_wellPlaced :
    Admitted (fun s o => NotQueued s o ∧ Fits (sizedParams 3 2) s o)
        (op (sizedParams 3 2).toParams) init wellPlaced ∧
      ∃ s, run (op (sizedParams 3 2).toParams) init wellPlaced = .ok s ∧
        s.pfq.length = 3 ∧ Ordered s.pfq := by
  have hops : Admitted (fun s o => NotQueued s o ∧ Fits (sizedParams 3 2) s o)
      (op (sizedParams 3 2).toParams) init wellPlaced := by decide +kernel
  have hlen : ∃ s, run (op (sizedParams 3 2).toParams) init wellPlaced = .ok s ∧
      s.pfq.length = 3 := by decide +kernel
  obtain ⟨s, hs, hlen⟩ := hlen
  have h := queues_inOrder (sizedParams 3 2) (by decide) wellPlaced hops
  rw [hs] at h
  exact ⟨hops, s, hs, hlen, h.1⟩

/-- **Queues out of order.**  A third prefetch of priority 5 comes in front of the second when one
of a lower priority is queued; and two prefetches wait for a translation where one may. -/
theorem queues_out_of_order :
    (Admitted NotQueued (op (sizedParams 4 1).toParams) init
        [nearby 1 5, nearby 2 5, nearby 3 1, nearby 4 5] ∧
      ∃ s, run (op (sizedParams 4 1).toParams) init
        [nearby 1 5, nearby 2 5, nearby 3 1, nearby 4 5] = .ok s ∧
          ¬ Ordered s.pfq ∧ s.pfq.map Node.place = [0, 3, 1, 2]) ∧
    (Admitted NotQueued (op (sizedParams 4 1).toParams) init [faraway 2 0, faraway 3 0] ∧
      ∃ s, run (op (sizedParams 4 1).toParams) init [faraway 2 0, faraway 3 0] = .ok s ∧
        (sizedParams 4 1).missingTranslationQueueSize < s.pfqMissingTranslation.length) := by
  refine ⟨⟨?_, ?_⟩, ?_, ?_⟩ <;> decide +kernel

end Queued

end Gem5.Prefetch
