/-
# Filtered duplicates

With `queueFilter`, a prefetch that is queued already is not queued again; its entry is to be given
the higher of the two priorities.  The loop of `alreadyInQueue` that looks for the entry leaves its
iterator one past it, and what follows is done to the entry there: if there is none the duplicate is
not even counted, and if there is one it is promoted in place of the other.

No prefetch is queued twice all the same (`filter_promotes_iff`, second part): the loop does find
the duplicate.
-/
import Gem5.PrefetchOrder

open Runs

namespace Gem5.Prefetch

/-! ## What is queued -/

/-- The address and the security bit of a queued prefetch. -/
def DeferredPacket.key (dp : DeferredPacket) : BitVec 64 × Bool :=
  (dp.pfInfo.address, dp.pfInfo.secure)

def Node.key (n : Node) : BitVec 64 × Bool := n.dp.key

theorem map_key (q : List Node) : q.map Node.key = (q.map Node.dp).map DeferredPacket.key := by
  rw [List.map_map]
  rfl

variable {pfi : PrefetchInfo} {before after : List Node}

theorem sameAddr_iff {i : PrefetchInfo} :
    i.sameAddr pfi = true ↔ (i.address, i.secure) = (pfi.address, pfi.secure) := by
  unfold PrefetchInfo.sameAddr
  rw [Bool.and_eq_true, decide_eq_true_eq, decide_eq_true_eq, Prod.mk.injEq]

/-- No two entries of the two queues share address and security bit. -/
def Distinct (s : Queued) : Prop := ((s.pfq ++ s.pfqMissingTranslation).map Node.key).Nodup

instance (s : Queued) : Decidable (Distinct s) := inferInstanceAs (Decidable (List.Nodup _))

/-- The loop that looks for an address stops one past the first entry with it. -/
theorem findAddr_found {q : List Node} (h : (findAddr pfi q).1 = true) :
    ∃ before n after, q = before ++ n :: after ∧ n.dp.pfInfo.sameAddr pfi = true ∧
      (findAddr pfi q).2 = before.length + 1 := by
  induction q with
  | nil => cases h
  | cons a q ih =>
    unfold findAddr at h ⊢
    by_cases hsame : a.dp.pfInfo.sameAddr pfi = true
    · rw [if_pos hsame]
      exact ⟨[], a, q, rfl, hsame, rfl⟩
    · rw [if_neg hsame] at h ⊢
      obtain ⟨before, n, after, rfl, hn, hpos⟩ := ih h
      exact ⟨a :: before, n, after, rfl, hn, congrArg (· + 1) hpos⟩

theorem findAddr_not_found {q : List Node} :
    (findAddr pfi q).1 = false ↔ (pfi.address, pfi.secure) ∉ q.map Node.key := by
  induction q with
  | nil => exact ⟨fun _ => List.not_mem_nil, fun _ => rfl⟩
  | cons a q ih =>
    unfold findAddr
    rw [List.map_cons, List.mem_cons, not_or]
    by_cases hsame : a.dp.pfInfo.sameAddr pfi = true
    · rw [if_pos hsame]
      exact ⟨fun h => Bool.noConfusion h, fun h => absurd (sameAddr_iff.mp hsame).symm h.1⟩
    · rw [if_neg hsame, ih]
      exact ⟨fun h => ⟨fun heq => hsame (sameAddr_iff.mpr heq.symm), h⟩, fun h => h.2⟩

/-! ## The promotion -/

/-- Moving an entry up rearranges the packets. -/
theorem perm_swapEntries (q : List Node) (it prev : ℕ) :
    ((swapEntries q it prev).map Node.dp).Perm (q.map Node.dp) := by
  unfold swapEntries
  split
  · rename_i a b ha hb
    obtain ⟨hit, rfl⟩ := List.getElem?_eq_some_iff.mp ha
    obtain ⟨hprev, rfl⟩ := List.getElem?_eq_some_iff.mp hb
    rw [List.map_set, List.map_set]
    have hlen : (q.map Node.dp).length = q.length := List.length_map _
    have hperm := @List.set_set_perm _ (q.map Node.dp) it prev (hlen.symm ▸ hit)
      (hlen.symm ▸ hprev)
    rwa [List.getElem_map, List.getElem_map] at hperm
  · exact .refl _

theorem perm_moveUp (q : List Node) (it prev : ℕ) :
    ((moveUp q it prev).map Node.dp).Perm (q.map Node.dp) := by
  induction prev generalizing q it with
  | zero => exact .refl _
  | succ prev ih =>
    unfold moveUp
    split
    · split_ifs
      · exact (ih _ _).trans (perm_swapEntries q it prev)
      · exact ih q it
    · exact .refl _

/-- `statsQueued.pfBufferHit` in `alreadyInQueue`. -/
def bufferHit (q : List Node) (pfi : PrefetchInfo) : ℕ :=
  if (findAddr pfi q).2 < q.length then 1 else 0

/-- `it->priority = priority` -/
def DeferredPacket.setPriority (dp : DeferredPacket) (priority : ℤ) : DeferredPacket :=
  { dp with priority := priority }

theorem perm_append_pair {α : Type*} (before rest : List α) (n m : α) :
    (before ++ n :: m :: rest).Perm (m :: n :: (before ++ rest)) :=
  (List.perm_middle.trans (.cons _ List.perm_middle)).trans (.swap _ _ _)

/-- What `alreadyInQueue` does to a queue with the address. -/
theorem alreadyInQueue_found {n : Node}
    (hpos : (findAddr pfi (before ++ n :: after)).2 = before.length + 1) (priority : ℤ) :
    (after = [] ∧ bufferHit (before ++ n :: after) pfi = 0) ∨
    ∃ m rest, after = m :: rest ∧ bufferHit (before ++ n :: after) pfi = 1 ∧
      if m.dp.priority < priority then
        ((alreadyInQueue (before ++ n :: after) pfi priority).2.map Node.dp).Perm
          (m.dp.setPriority priority :: n.dp :: (before ++ rest).map Node.dp)
      else (alreadyInQueue (before ++ n :: after) pfi priority).2 = before ++ n :: after := by
  unfold bufferHit
  rw [hpos, List.length_append]
  cases after with
  | nil => exact .inl ⟨rfl, if_neg (by simp)⟩
  | cons m rest =>
    refine .inr ⟨m, rest, rfl, if_pos (by simp), ?_⟩
    have hm : (before ++ n :: m :: rest)[before.length + 1]? = some m := by
      rw [List.getElem?_append_right (Nat.le_succ _), Nat.succ_sub (Nat.le_refl _), Nat.sub_self]
      rfl
    unfold alreadyInQueue
    simp only [hpos, hm]
    split_ifs
    · refine (perm_moveUp _ _ _).trans ?_
      have hset : (before ++ n :: m :: rest).set (before.length + 1)
          { m with dp := { m.dp with priority := priority } } =
          before ++ n :: { m with dp := { m.dp with priority := priority } } :: rest := by
        rw [List.set_append_right _ _ (Nat.le_succ _), Nat.succ_sub (Nat.le_refl _), Nat.sub_self]
        rfl
      rw [hset]
      exact (perm_append_pair before rest n _).map Node.dp
    · rfl

/-- The matching entry gets the higher of the two priorities; the others stay as they are, in their
order. -/
def Promotes (q q' : List Node) (pfi : PrefetchInfo) (priority : ℤ) : Prop :=
  ∃ before n after i, q = before ++ n :: after ∧ n.dp.pfInfo.sameAddr pfi = true ∧
    i ≤ (before ++ after).length ∧
    q'.map Node.dp = ((before ++ after).map Node.dp).insertIdx i
      (n.dp.setPriority (max n.dp.priority priority))

/-- If no other entry has the address, it is clear which packets there are after a promotion. -/
theorem Promotes.perm {q' : List Node} {n : Node} {priority : ℤ}
    (h : Promotes (before ++ n :: after) q' pfi priority)
    (hself : ∀ m ∈ before ++ n :: after, m.dp.pfInfo.sameAddr pfi = true → m = n) :
    (q'.map Node.dp).Perm
      (n.dp.setPriority (max n.dp.priority priority) :: (before ++ after).map Node.dp) := by
  obtain ⟨before', n', after', i, hsplit, hsame, hi, hmap⟩ := h
  obtain rfl := hself n' (hsplit ▸ List.mem_append_right _ List.mem_cons_self) hsame
  have hothers : (before' ++ after').Perm (before ++ after) := by
    refine (List.perm_cons n').mp (List.perm_middle.symm.trans ?_)
    rw [← hsplit]
    exact List.perm_middle
  rw [hmap]
  refine (List.perm_insertIdx _ _ (by rwa [List.length_map])).trans (.cons _ ?_)
  exact hothers.map Node.dp

/-- The matching entry is not the last one, and neither it nor the next has a lower priority. -/
def Covered (q : List Node) (pfi : PrefetchInfo) (priority : ℤ) : Prop :=
  ∃ n ∈ q[(findAddr pfi q).2 - 1]?, ∃ m ∈ q[(findAddr pfi q).2]?,
    priority ≤ n.dp.priority ∧ priority ≤ m.dp.priority

instance (q : List Node) (pfi : PrefetchInfo) (prio : ℤ) : Decidable (Covered q pfi prio) :=
  match hn : q[(findAddr pfi q).2 - 1]?, hm : q[(findAddr pfi q).2]? with
  | some n, some m => decidable_of_iff (prio ≤ n.dp.priority ∧ prio ≤ m.dp.priority) (by
      simp only [Covered, hn, hm, Option.mem_some_iff, exists_eq_left'])
  | none, _ => .isFalse (by simp [Covered, hn])
  | some _, none => .isFalse (by simp [Covered, hm])

theorem covered_iff {n : Node} {priority : ℤ}
    (hpos : (findAddr pfi (before ++ n :: after)).2 = before.length + 1) :
    Covered (before ++ n :: after) pfi priority ↔
      ∃ m rest, after = m :: rest ∧ priority ≤ n.dp.priority ∧ priority ≤ m.dp.priority := by
  have hn : (before ++ n :: after)[before.length]? = some n := by
    rw [List.getElem?_append_right (Nat.le_refl _), Nat.sub_self]
    rfl
  have hm : (before ++ n :: after)[before.length + 1]? = after[0]? := by
    rw [List.getElem?_append_right (Nat.le_succ _), Nat.succ_sub (Nat.le_refl _), Nat.sub_self]
    rfl
  unfold Covered
  rw [hpos, Nat.add_sub_cancel, hn, hm]
  cases after with
  | nil => simp
  | cons m rest => simp

/-- **When the matching entry alone is promoted**, and counted. -/
theorem promotes_iff {q : List Node} {priority : ℤ} (hdistinct : (q.map Node.key).Nodup)
    (hfound : (findAddr pfi q).1 = true) :
    bufferHit q pfi = 1 ∧ Promotes q (alreadyInQueue q pfi priority).2 pfi priority ↔
      Covered q pfi priority := by
  obtain ⟨before, n, after, rfl, hn, hpos⟩ := findAddr_found hfound
  rw [covered_iff hpos]
  have hself (m : Node) (hm : m ∈ before ++ n :: after) (hsame : m.dp.pfInfo.sameAddr pfi = true) :
      m = n := by
    refine List.inj_on_of_nodup_map hdistinct hm (List.mem_append_right _ List.mem_cons_self) ?_
    exact (sameAddr_iff.mp hsame).trans (sameAddr_iff.mp hn).symm
  rcases alreadyInQueue_found hpos priority with ⟨rfl, hhit⟩ | ⟨m, rest, rfl, hhit, hqueue⟩
  · rw [hhit]
    exact ⟨fun h => absurd h.1 Nat.zero_ne_one, fun ⟨_, _, h, _⟩ => absurd h.symm nofun⟩
  · rw [hhit]
    have hcovered : (∃ m' rest', m :: rest = m' :: rest' ∧ priority ≤ n.dp.priority ∧
        priority ≤ m'.dp.priority) ↔ priority ≤ n.dp.priority ∧ priority ≤ m.dp.priority := by
      constructor
      · rintro ⟨_, _, heq, h⟩
        rw [(List.cons.inj heq).1]
        exact h
      · exact fun h => ⟨m, rest, rfl, h⟩
    rw [hcovered]
    constructor
    · rintro ⟨-, hpromotes⟩
      have hperm := hpromotes.perm hself
      split_ifs at hqueue with hlow
      · -- The entry behind the matching one has been changed, and no other entry is like it.
        exfalso
        have hmem := hqueue.subset (hperm.symm.subset (List.mem_cons_of_mem _
          (List.mem_map_of_mem (List.mem_append_right before List.mem_cons_self))))
        rcases List.mem_cons.mp hmem with heq | hmem
        · exact hlow.ne (congrArg DeferredPacket.priority heq)
        · have hq := (perm_append_pair before rest n m).map Node.key
          have hother := (List.nodup_cons.mp (hq.nodup_iff.mp hdistinct)).1
          obtain ⟨k, hk, hkm⟩ := List.mem_map.mp (List.map_cons ▸ hmem)
          refine hother (List.mem_map.mpr ⟨k, hk, ?_⟩)
          rw [Node.key, Node.key, hkm]
      · rw [hqueue] at hperm
        have hsame : n.dp = n.dp.setPriority (max n.dp.priority priority) := by
          refine (Multiset.cons_inj_left ((before ++ m :: rest).map Node.dp : Multiset _)).mp ?_
          exact Quot.sound ((List.perm_middle.map Node.dp).symm.trans hperm)
        refine ⟨max_eq_left_iff.mp ?_, not_lt.mp hlow⟩
        exact (congrArg DeferredPacket.priority hsame).symm
    · rintro ⟨hle, hle'⟩
      rw [if_neg (not_lt.mpr hle')] at hqueue
      refine ⟨rfl, before, n, m :: rest, before.length, rfl, hn, ?_, ?_⟩
      · rw [List.length_append]
        exact Nat.le_add_right _ _
      · rw [hqueue, max_eq_left hle, List.map_append, List.map_append, List.map_cons]
        have hlen : before.length = (before.map Node.dp).length := (List.length_map _).symm
        rw [hlen, insertIdx_append]
        rfl

namespace Queued

/-! ## A filtered insertion -/

/-- The queue in which `insert` finds the address. -/
def matching (s : Queued) (pfi : PrefetchInfo) : List Node :=
  if (findAddr pfi s.pfq).1 then s.pfq else s.pfqMissingTranslation

def setMatching (s : Queued) (pfi : PrefetchInfo) (q : List Node) : Queued :=
  if (findAddr pfi s.pfq).1 then { s with pfq := q } else { s with pfqMissingTranslation := q }

/-- `statsQueued.pfBufferHit` in the filter of `insert`. -/
def pfBufferHit (s : Queued) (pfi : PrefetchInfo) : ℕ :=
  if (findAddr pfi s.pfq).1 then bufferHit s.pfq pfi
  else bufferHit s.pfq pfi + bufferHit s.pfqMissingTranslation pfi

/-- The insertion counts one hit and promotes the matching entry alone. -/
def PromotesOwn (p : Params) (env : Env) (pkt : Access) (s : Queued) (pfi : PrefetchInfo)
    (priority : ℤ) : Prop :=
  s.pfBufferHit pfi = 1 ∧ ∃ q, Promotes (s.matching pfi) q pfi priority ∧
    s.insert p env pkt pfi priority = .ok (s.setMatching pfi q)

variable {p : Params} {s : Queued} {pfi : PrefetchInfo}

/-- What a filtered insertion does. -/
theorem insert_filtered (h : Filtered p s pfi) (env : Env) (pkt : Access) (priority : ℤ) :
    (findAddr pfi (s.matching pfi)).1 = true ∧
      s.pfBufferHit pfi = bufferHit (s.matching pfi) pfi ∧
      s.insert p env pkt pfi priority =
        .ok (s.setMatching pfi (alreadyInQueue (s.matching pfi) pfi priority).2) := by
  obtain ⟨hfilter, hfound⟩ := h
  unfold matching setMatching pfBufferHit Queued.insert
  rw [if_pos hfilter]
  dsimp only
  rw [alreadyInQueue_fst, alreadyInQueue_fst]
  cases hpfq : (findAddr pfi s.pfq).1 with
  | true =>
    rw [if_pos rfl, if_pos rfl, if_pos rfl, if_pos rfl]
    exact ⟨hpfq, rfl, rfl⟩
  | false =>
    have hmissing := hfound.resolve_left (by rw [hpfq]; exact Bool.false_ne_true)
    have hnone : bufferHit s.pfq pfi = 0 := by
      unfold bufferHit
      rw [findAddr_end hpfq, if_neg (lt_irrefl _)]
    simp only [Bool.false_eq_true, if_false]
    rw [hmissing, if_pos rfl, hnone, Nat.zero_add, alreadyInQueue_of_not_found priority hpfq]
    exact ⟨rfl, rfl, rfl⟩

theorem nodup_matching (h : Distinct s) (pfi : PrefetchInfo) :
    ((s.matching pfi).map Node.key).Nodup := by
  unfold Distinct at h
  rw [List.map_append] at h
  unfold Queued.matching
  split_ifs
  · exact (List.nodup_append.mp h).1
  · exact (List.nodup_append.mp h).2.1

theorem setMatching_inj {q q' : List Node} (h : s.setMatching pfi q = s.setMatching pfi q') :
    q = q' := by
  unfold setMatching at h
  split_ifs at h
  · exact congrArg Queued.pfq h
  · exact congrArg Queued.pfqMissingTranslation h

/-- **When a filtered duplicate promotes its own entry alone**, and is counted once. -/
theorem promotesOwn_iff (hs : Distinct s) (h : Filtered p s pfi) (env : Env) (pkt : Access)
    (priority : ℤ) :
    PromotesOwn p env pkt s pfi priority ↔ Covered (s.matching pfi) pfi priority := by
  obtain ⟨hfound, hhit, hinsert⟩ := insert_filtered h env pkt priority
  rw [← promotes_iff (nodup_matching hs pfi) hfound, PromotesOwn, hhit, hinsert]
  refine and_congr_right fun _ => ⟨?_, fun hq => ⟨_, hq, rfl⟩⟩
  rintro ⟨q, hq, heq⟩
  rwa [setMatching_inj (Except.ok.inj heq)]

/-! ## No prefetch is queued twice -/

/-- What the two queues hold. -/
def keys (s : Queued) : List (BitVec 64 × Bool) := (s.pfq ++ s.pfqMissingTranslation).map Node.key

theorem nodup_of_subperm {α : Type*} {l l' : List α} (h : l.Subperm l') (hl : l'.Nodup) :
    l.Nodup := by
  obtain ⟨l₀, hperm, hsub⟩ := h
  exact hperm.nodup_iff.mp (hl.sublist hsub)

theorem subperm_insertIdx {α : Type*} (l : List α) (i : ℕ) (x : α) :
    (l.insertIdx i x).Subperm (x :: l) := by
  by_cases hi : i ≤ l.length
  · exact (List.perm_insertIdx x l hi).subperm
  · rw [List.insertIdx_of_length_lt (not_le.mp hi)]
    exact List.Subperm.cons_self

/-- A queue gets the new packet and may lose another. -/
theorem addToQueue_keys (p : Params) (q : List Node) (place : ℕ) (dpp : DeferredPacket) :
    Ends (fun q' => (q'.map Node.key).Subperm (Node.key ⟨place, dpp⟩ :: q.map Node.key))
      (fun _ => True) (addToQueue p q place dpp) := by
  refine ((addToQueue_ends p q place dpp).mono_error fun _ _ => trivial).mono ?_
  rintro _ ⟨q₁, i, rfl, hq₁⟩
  have hsub : q₁.Sublist q := by
    rcases hq₁ with rfl | ⟨_, rfl⟩
    · exact .refl _
    · exact List.eraseIdx_sublist _ _
  rw [List.map_insertIdx]
  exact (subperm_insertIdx _ i _).trans ((hsub.map Node.key).cons_cons _).subperm

theorem addToPfq_keys (p : Params) (s : Queued) (dpp : DeferredPacket) :
    Ends (fun s' => s'.pfqMissingTranslation = s.pfqMissingTranslation ∧
        (s'.pfq.map Node.key).Subperm (Node.key ⟨0, dpp⟩ :: s.pfq.map Node.key))
      (fun _ => True) (s.addToPfq p dpp) :=
  (addToQueue_keys p s.pfq s.nextPlace dpp).bind fun _ hq => ⟨rfl, hq⟩

theorem keys_setOngoing (s : Queued) (place : ℕ) (b : Bool) :
    (s.setOngoing place b).keys = s.keys := by
  obtain ⟨f, hf, hmap⟩ := setOngoing_eq_map s.pfqMissingTranslation place b
  unfold keys
  rw [hmap s rfl, List.map_append, List.map_append, List.map_map]
  congr 2
  funext n
  rw [Function.comp_apply, Node.key, Node.key, DeferredPacket.key, (hf n).2.2.2, DeferredPacket.key]

/-- The end of a translation moves a packet from one queue to the other, or drops it. -/
theorem translationComplete_keys (p : Params) (env : Env) (s : Queued) (place : ℕ) (failed : Bool) :
    Ends (fun x => x.1.keys.Subperm s.keys) (fun _ => True)
      (s.translationComplete p env place failed) := by
  unfold translationComplete
  cases hit : s.entry place with
  | none => trivial
  | some it =>
    obtain ⟨hplace, before, behind, hsplit, hbefore⟩ := List.find?_eq_some_iff_append.mp hit
    have hplace : it.place = place := of_decide_eq_true hplace
    subst hplace
    have herase : s.pfqMissingTranslation.eraseP (·.place = it.place) = before ++ behind := by
      rw [hsplit]
      refine eraseP_of_split fun m hm heq => ?_
      simpa [heq] using hbefore m hm
    rw [herase]
    have hdrop : ({ s with pfqMissingTranslation := before ++ behind } : Queued).keys.Subperm
        s.keys := by
      refine List.Sublist.subperm (List.Sublist.map _ (List.Sublist.append_left ?_ _))
      rw [hsplit]
      exact (List.sublist_cons_self it behind).append_left before
    show Ends _ _ (if failed = true then _ else _)
    cases failed with
    | true => exact hdrop
    | false =>
      rw [if_neg Bool.false_ne_true]
      refine (ends_orFail trivial it.dp.translationRequest).bind fun r _ => ?_
      refine (ends_orFail trivial s.requests[r]?).bind fun req _ => ?_
      refine (ends_orFail trivial req.paddr).bind fun paddr _ => ?_
      split_ifs
      · exact hdrop
      · refine (addToPfq_keys p s _).bind fun t ht => ?_
        show ((t.pfq ++ (before ++ behind)).map Node.key).Subperm s.keys
        unfold keys
        rw [hsplit]
        simp only [List.map_append, List.map_cons]
        refine (List.Subperm.append ht.2 (.refl _)).trans (List.Perm.subperm ?_)
        exact List.perm_middle.symm.trans (.append_left _ List.perm_middle.symm)

theorem alreadyInQueue_keys (q : List Node) (pfi : PrefetchInfo) (priority : ℤ) :
    ((alreadyInQueue q pfi priority).2.map Node.key).Perm (q.map Node.key) := by
  cases hfound : (findAddr pfi q).1 with
  | false => rw [alreadyInQueue_of_not_found priority hfound]
  | true =>
    obtain ⟨before, n, after, rfl, hn, hpos⟩ := findAddr_found hfound
    rcases alreadyInQueue_found hpos priority with ⟨rfl, _⟩ | ⟨m, rest, rfl, _, hqueue⟩
    · unfold alreadyInQueue
      have hend : (before ++ [n])[before.length + 1]? = none := by
        rw [List.getElem?_eq_none_iff, List.length_append]
        exact Nat.le_refl _
      simp only [hpos, hend]
      exact .refl _
    · split_ifs at hqueue
      · rw [map_key]
        refine (hqueue.map DeferredPacket.key).trans ?_
        have hpair := ((perm_append_pair before rest n m).map Node.key).symm
        rw [List.map_cons, List.map_cons, ← map_key]
        exact hpair
      · rw [hqueue]

/-- An insertion that the filter lets through adds a prefetch that is not queued. -/
theorem distinct_enqueue (h : Distinct s) (hnew : (pfi.address, pfi.secure) ∉ s.keys) (env : Env)
    (pkt : Access) (priority : ℤ) :
    Ends Distinct (fun _ => True) (s.enqueue p env pkt pfi priority) := by
  have hcons : ((pfi.address, pfi.secure) :: s.keys).Nodup := List.nodup_cons.mpr ⟨hnew, h⟩
  unfold Queued.enqueue
  cases target p pkt pfi with
  | error e => trivial
  | ok t =>
    cases t with
    | drop => exact h
    | physical paddr =>
      show Ends _ _ (if _ then _ else _)
      split_ifs
      · exact h
      · refine (addToPfq_keys p s _).mono fun s' hs' => nodup_of_subperm ?_ hcons
        unfold keys
        rw [List.map_append, List.map_append, hs'.1]
        exact List.Subperm.append hs'.2 (.refl _)
    | translate req =>
      refine (addToQueue_keys p s.pfqMissingTranslation s.nextPlace _).bind fun q hq => ?_
      refine nodup_of_subperm ?_ hcons
      unfold keys
      rw [List.map_append, List.map_append]
      exact (List.Subperm.append (.refl _) hq).trans List.perm_middle.subperm

theorem distinct_insert (hfilter : p.queueFilter = true) (h : Distinct s) (env : Env) (pkt : Access)
    (pfi : PrefetchInfo) (priority : ℤ) :
    Ends Distinct (fun _ => True) (s.insert p env pkt pfi priority) := by
  unfold Queued.insert
  rw [if_pos hfilter]
  dsimp only
  rw [alreadyInQueue_fst, alreadyInQueue_fst]
  have hpfqkeys := alreadyInQueue_keys s.pfq pfi priority
  have hmissingkeys := alreadyInQueue_keys s.pfqMissingTranslation pfi priority
  cases hpfq : (findAddr pfi s.pfq).1 with
  | true =>
    rw [if_pos rfl]
    refine nodup_of_subperm (List.Perm.subperm ?_) h
    rw [List.map_append, List.map_append]
    exact hpfqkeys.append_right _
  | false =>
    rw [if_neg Bool.false_ne_true, alreadyInQueue_of_not_found priority hpfq]
    cases hmissing : (findAddr pfi s.pfqMissingTranslation).1 with
    | true =>
      rw [if_pos rfl]
      refine nodup_of_subperm (List.Perm.subperm ?_) h
      rw [List.map_append, List.map_append]
      exact hmissingkeys.append_left _
    | false =>
      rw [if_neg Bool.false_ne_true, alreadyInQueue_of_not_found priority hmissing]
      refine distinct_enqueue h ?_ env pkt priority
      unfold keys
      rw [List.map_append, List.mem_append, not_or]
      exact ⟨findAddr_not_found.mp hpfq, findAddr_not_found.mp hmissing⟩

/-- **One operation queues no prefetch twice.** -/
theorem distinct_op (hfilter : p.queueFilter = true) (h : Distinct s) (o : QueueOp) :
    Ends Distinct (fun _ => True) (s.op p o) := by
  cases o with
  | insert env pkt pfi priority => exact distinct_insert hfilter h env pkt pfi priority
  | squash pfi =>
    refine nodup_of_subperm (List.Sublist.subperm (List.Sublist.map _ ?_)) h
    refine List.Sublist.append ?_ ?_
    all_goals unfold Queued.squash; split_ifs
    · exact List.filter_sublist
    all_goals exact .refl _
  | startTranslation env place =>
    show Ends _ _ (s.startTranslation p env (fun _ => none) place)
    unfold startTranslation
    refine (ends_orFail trivial _).bind fun n _ => (ends_orFail trivial _).bind fun r _ => ?_
    split_ifs
    · exact h
    · refine (ends_require trivial).bind fun _ _ => ?_
      show (s.setOngoing place true).keys.Nodup
      rw [keys_setOngoing]
      exact h
  | answer env k a =>
    refine (ends_orFail trivial _).bind fun t _ => ?_
    have hfilled : (s.filled t a).keys = s.keys := by cases a <;> rfl
    unfold answer finish
    refine Ends.bind (P := fun x : Queued × Option DeferredPacket => x.1.keys.Nodup) ?_
      fun x hx => hx
    refine (ends_orFail trivial _).bind fun n _ => (ends_require trivial).bind fun _ _ => ?_
    refine (translationComplete_keys p env _ _ _).mono fun x hx => ?_
    rw [keys_setOngoing, hfilled] at hx
    exact nodup_of_subperm hx h
  | issue =>
    show Ends _ _ s.issue
    unfold issue
    rcases hpfq : s.pfq with _ | ⟨front, pfq⟩
    · exact h
    · refine (ends_require trivial).bind fun _ _ => ?_
      refine nodup_of_subperm (List.Sublist.subperm (List.Sublist.map _ ?_)) h
      rw [hpfq]
      exact List.sublist_cons_self _ _

/-! ## Runs -/

theorem Leads.distinct (hfilter : p.queueFilter = true) {s' : Queued} (h : Leads p s s')
    (hs : Distinct s) : Distinct s' := by
  obtain ⟨ops, hops⟩ := h
  have hall : Admitted (fun _ _ => True) (op p) s ops := admitted_of_forall fun _ _ _ => trivial
  have hends := run_ends (fun t o ht _ => distinct_op hfilter ht o) hs hall
  rw [hops] at hends
  exact hends

/-- **Filtered duplicates.**  With `queueFilter`, whatever the queues, a prefetch that is queued
already is counted once and promotes its own entry alone if and only if that entry is not the last
one of its queue, and neither it nor the next one has a lower priority: then there is nothing to do.
In every state of every run no two entries share address and security bit. -/
theorem filter_promotes_iff (p : Params) (hfilter : p.queueFilter = true) :
    (∀ env pkt s pfi priority, Distinct s → Filtered p s pfi →
      (PromotesOwn p env pkt s pfi priority ↔ Covered (s.matching pfi) pfi priority)) ∧
    ∀ as s, run (Queued.step p) init as = .ok s → Distinct s := by
  refine ⟨fun env pkt s pfi priority hs h => promotesOwn_iff hs h env pkt priority,
    fun as s hrun => ?_⟩
  have hall : Admitted (fun _ _ => True) (Queued.step p) init as :=
    admitted_of_forall fun _ _ _ => trivial
  have hstart : Distinct init := List.nodup_nil
  exact run_invariant (fun t a t' ht _ hstep => (leads_step hstep).distinct hfilter ht) hstart hall
    hrun

/-- Two queued prefetches with the given priorities. -/
def queuedPair (first second : ℤ) : Queued :=
  { init with
    pfq := [⟨0, DeferredPacket.new (blockInfo 1) 0 first⟩,
      ⟨1, DeferredPacket.new (blockInfo 2) 0 second⟩]
    nextPlace := 2 }

theorem filter_promotes_pair :
    PromotesOwn (testParams 4) testEnv testAccess (queuedPair 5 3) (blockInfo 1) 2 ∧
      ¬ PromotesOwn (testParams 4) testEnv testAccess (queuedPair 5 3) (blockInfo 2) 2 := by
  have hiff := (filter_promotes_iff (testParams 4) rfl).1 testEnv testAccess (queuedPair 5 3)
  refine ⟨(hiff _ _ ?_ ?_).mpr ?_, fun h => absurd ((hiff _ _ ?_ ?_).mp h) ?_⟩
  all_goals decide +kernel

/-- **The wrong entry is promoted.**  The prefetch of the first block is found again with priority
5, and the second block is issued before it, with that priority.  One that is alone in the queue is
neither promoted nor counted. -/
theorem wrong_entry_promoted :
    (∃ s, run (op (testParams 4)) init [nearby 1 0, nearby 2 0] = .ok s ∧
      Filtered (testParams 4) s (blockInfo 1) ∧
      ¬ PromotesOwn (testParams 4) testEnv testAccess s (blockInfo 1) 5 ∧
      ∃ s', s.insert (testParams 4) testEnv testAccess (blockInfo 1) 5 = .ok s' ∧
        s'.pfq.map (fun n => (n.dp.pfInfo, n.dp.priority)) = [(blockInfo 2, 5), (blockInfo 1, 0)]) ∧
    ∃ s, run (op (testParams 4)) init [nearby 1 0] = .ok s ∧
      Filtered (testParams 4) s (blockInfo 1) ∧
      ¬ PromotesOwn (testParams 4) testEnv testAccess s (blockInfo 1) 5 ∧
      s.pfBufferHit (blockInfo 1) = 0 := by
  have hpair : ∃ s, run (op (testParams 4)) init [nearby 1 0, nearby 2 0] = .ok s ∧ Distinct s ∧
      Filtered (testParams 4) s (blockInfo 1) ∧
      ¬ Covered (s.matching (blockInfo 1)) (blockInfo 1) 5 ∧
      ∃ s', s.insert (testParams 4) testEnv testAccess (blockInfo 1) 5 = .ok s' ∧
        s'.pfq.map (fun n => (n.dp.pfInfo, n.dp.priority)) =
          [(blockInfo 2, 5), (blockInfo 1, 0)] := by decide +kernel
  have halone : ∃ s, run (op (testParams 4)) init [nearby 1 0] = .ok s ∧ Distinct s ∧
      Filtered (testParams 4) s (blockInfo 1) ∧ s.pfBufferHit (blockInfo 1) = 0 := by
    decide +kernel
  refine ⟨?_, ?_⟩
  · obtain ⟨s, hrun, hs, hfiltered, hcovered, hinsert⟩ := hpair
    exact ⟨s, hrun, hfiltered,
      fun h => hcovered ((promotesOwn_iff hs hfiltered _ _ _).mp h), hinsert⟩
  · obtain ⟨s, hrun, hs, hfiltered, hhit⟩ := halone
    refine ⟨s, hrun, hfiltered, fun h => ?_, hhit⟩
    rw [PromotesOwn, hhit] at h
    exact absurd h.1 Nat.zero_ne_one

end Queued

end Gem5.Prefetch
