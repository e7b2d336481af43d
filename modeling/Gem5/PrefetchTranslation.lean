/-
# Translations of prefetches

A translation is started for the deferred packet at an address, and when it ends the packet
at that address is taken for the one it was started for.  This is so as long as nothing moves
or removes a packet the TLB is working on.  Two things can: `addToQueue` removes the oldest
packet of the lowest priority from a full queue, and `alreadyInQueue` moves a packet whose
priority rises past others by swapping the contents of the list nodes.

`Owned` is the invariant: the translations in the TLB are those of the waiting packets that
are marked as being translated, with their requests.  Every action keeps it that does neither
of the two (`translations_own_prefetch`); the last section shows that either breaks it.
-/
import Gem5.PrefetchQueue

open Runs

namespace Gem5.Prefetch

/-! ## Lists -/

section Lists

variable {α β : Type*}

variable {l : List α} {f : α → Option β}

theorem filterMap_eraseIdx_of_none {i : ℕ} (h : ∀ x ∈ l[i]?, f x = none) :
    (l.eraseIdx i).filterMap f = l.filterMap f := by
  induction l generalizing i with
  | nil => rfl
  | cons a l ih =>
    cases i with
    | zero => rw [List.eraseIdx_cons_zero, List.filterMap_cons_none (h a rfl)]
    | succ i =>
      rw [List.eraseIdx_cons_succ, List.filterMap_cons, List.filterMap_cons, ih (i := i) h]

theorem filterMap_insertIdx_of_none {i : ℕ} {x : α} (h : f x = none) :
    (l.insertIdx i x).filterMap f = l.filterMap f := by
  induction l generalizing i with
  | nil => cases i with
    | zero => rw [List.insertIdx_zero, List.filterMap_cons_none h]
    | succ i => rfl
  | cons a l ih =>
    cases i with
    | zero => rw [List.insertIdx_zero, List.filterMap_cons_none h]
    | succ i => rw [List.insertIdx_succ_cons, List.filterMap_cons, List.filterMap_cons, ih]

theorem filterMap_set_of_eq {i : ℕ} {y : α} (h : ∀ x ∈ l[i]?, f y = f x) :
    (l.set i y).filterMap f = l.filterMap f := by
  induction l generalizing i with
  | nil => rfl
  | cons a l ih =>
    cases i with
    | zero => rw [List.set_cons_zero, List.filterMap_cons, List.filterMap_cons, h a rfl]
    | succ i => rw [List.set_cons_succ, List.filterMap_cons, List.filterMap_cons, ih (i := i) h]

theorem nodup_insertIdx {i : ℕ} {x : α} (hl : l.Nodup) (hx : x ∉ l) :
    (l.insertIdx i x).Nodup := by
  by_cases hi : i ≤ l.length
  · rw [(List.perm_insertIdx x l hi).nodup_iff]
    exact List.nodup_cons.mpr ⟨hx, hl⟩
  · rw [List.insertIdx_of_length_lt (by omega)]
    exact hl

end Lists

/-! ## What the TLB is working on -/

/-- The translation that was started for a waiting packet, if it is marked as being
translated. -/
def Node.translation (n : Node) : Option Translation :=
  if n.dp.ongoingTranslation then
    n.dp.translationRequest.map fun r => ⟨n.place, r, n.dp.pfInfo⟩
  else none

variable {n : Node} {t : Translation} {s : Queued} {p : Params} {q before behind : List Node}
  {pfi : PrefetchInfo} {paddr : BitVec 64} {env : Env} {tlb : ℕ → Option TlbAnswer}

theorem Node.translation_eq_none (h : n.dp.ongoingTranslation = false) :
    n.translation = none := by
  unfold Node.translation
  rw [h, if_neg (by simp)]

theorem Node.translation_eq_some :
    n.translation = some t ↔ n.dp.ongoingTranslation = true ∧
      n.dp.translationRequest = some t.request ∧ n.place = t.place ∧ n.dp.pfInfo = t.pfInfo := by
  unfold Node.translation
  obtain ⟨place, request, pfInfo⟩ := t
  by_cases h : n.dp.ongoingTranslation
  · rw [if_pos h, Option.map_eq_some_iff]
    constructor
    · rintro ⟨r, hr, heq⟩
      cases heq
      exact ⟨h, hr, rfl, rfl⟩
    · rintro ⟨-, hr, rfl, rfl⟩
      exact ⟨request, hr, rfl⟩
  · rw [if_neg h]
    exact ⟨nofun, fun h' => absurd h'.1 h⟩

/-- A translation put in `pfq` the packet it was started for, with the physical address that
the TLB found. -/
def Completion.OnOwn (c : Completion) : Prop :=
  ∀ dp ∈ c.queued, dp.pfInfo = c.translation.pfInfo ∧
    dp.translationRequest = some c.translation.request ∧
    ∃ paddr, c.answer = .translated paddr ∧ dp.pkt.map (·.paddr) = some paddr

/-- **The invariant.**  The translations in the TLB are those of the waiting packets marked as
being translated. -/
structure Owned (s : Queued) : Prop where
  nodup : (s.pfqMissingTranslation.map Node.place).Nodup
  fresh : ∀ n ∈ s.pfqMissingTranslation, n.place < s.nextPlace
  request : ∀ n ∈ s.pfqMissingTranslation,
    ∃ r, n.dp.translationRequest = some r ∧ r < s.requests.length
  inTlb : s.inTlb.Perm (s.pfqMissingTranslation.filterMap Node.translation)
  onOwn : ∀ c ∈ s.completions, c.OnOwn

/-- A failure that has nothing to do with translations. -/
def Unrelated (e : PrefetchFail) : Prop := e.ofTranslation = false

theorem owned_init : Owned Queued.init where
  nodup := List.nodup_nil
  fresh _ h := absurd h List.not_mem_nil
  request _ h := absurd h List.not_mem_nil
  inTlb := .refl _
  onOwn _ h := absurd h List.not_mem_nil

/-- The places of the waiting packets. -/
def Queued.places (s : Queued) : List ℕ := s.pfqMissingTranslation.map Node.place

/-- What has to be shown again after an operation that adds no waiting packet. -/
theorem Owned.of_sublist {s' : Queued} (hs : Owned s) (hplaces : s'.places.Sublist s.places)
    (hreq : ∀ n ∈ s'.pfqMissingTranslation,
      ∃ m ∈ s.pfqMissingTranslation, n.dp.translationRequest = m.dp.translationRequest)
    (hnext : s.nextPlace ≤ s'.nextPlace) (hlength : s'.requests.length = s.requests.length)
    (htlb : s'.inTlb.Perm (s'.pfqMissingTranslation.filterMap Node.translation))
    (hown : ∀ c ∈ s'.completions, c.OnOwn) : Owned s' where
  nodup := hs.nodup.sublist hplaces
  fresh n hn := by
    obtain ⟨m, hm, hmn⟩ := List.mem_map.mp (hplaces.subset (List.mem_map_of_mem hn))
    exact hmn ▸ (hs.fresh m hm).trans_le hnext
  request n hn := by
    obtain ⟨m, hm, hnm⟩ := hreq n hn
    rw [hnm, hlength]
    exact hs.request m hm
  inTlb := htlb
  onOwn := hown

/-- The invariant does not look at `pfq`. -/
theorem Owned.of_pfq {s' : Queued} (hs : Owned s)
    (hmissing : s'.pfqMissingTranslation = s.pfqMissingTranslation)
    (hnext : s.nextPlace ≤ s'.nextPlace) (hlength : s'.requests.length = s.requests.length)
    (htlb : s'.inTlb = s.inTlb) (hdone : s'.completions = s.completions) : Owned s' := by
  refine hs.of_sublist ?_ (fun n hn => ⟨n, hmissing ▸ hn, rfl⟩) hnext hlength ?_ ?_
  · unfold Queued.places
    rw [hmissing]
  · rw [htlb, hmissing]
    exact hs.inTlb
  · rw [hdone]
    exact hs.onOwn

/-! ## Adding to a queue -/

/-- A full queue from which `addToQueue` does not remove a packet that is being translated. -/
def EvictsIdle (p : Params) (q : List Node) : Prop :=
  q.length = p.queueSize → ∀ n ∈ q[victim q]?, n.dp.ongoingTranslation = false

theorem addToQueue_ends (p : Params) (q : List Node) (place : ℕ) (dpp : DeferredPacket) :
    Ends (fun q' => ∃ q₁ i, q' = q₁.insertIdx i ⟨place, dpp⟩ ∧
      (q₁ = q ∨ q.length = p.queueSize ∧ q₁ = q.eraseIdx (victim q))) Unrelated
      (addToQueue p q place dpp) := by
  unfold addToQueue
  by_cases hfull : q.length = p.queueSize
  · rw [if_pos hfull]
    refine Ends.bind (P := fun _ => True) ?_ fun _ _ => ?_
    · cases hempty : decide (q.length ≠ 0) <;> trivial
    · refine Ends.bind (P := fun _ => True) ?_ fun _ _ => ?_
      · cases hone : decide (q.length ≠ 1) <;> trivial
      · exact ⟨_, _, rfl, .inr ⟨hfull, rfl⟩⟩
  · rw [if_neg hfull]
    exact ⟨_, _, rfl, .inl rfl⟩

theorem addToPfq_ends (p : Params) (s : Queued) (dpp : DeferredPacket) :
    Ends (fun s' => ∃ pfq, s' = { s with pfq := pfq, nextPlace := s.nextPlace + 1 }) Unrelated
      (s.addToPfq p dpp) :=
  (addToQueue_ends p s.pfq s.nextPlace dpp).bind fun pfq _ => ⟨pfq, rfl⟩

/-- A new packet that waits for its translation keeps the invariant, unless a packet is removed
for it that is being translated. -/
theorem Owned.addToMissing (hs : Owned s) {dpp : DeferredPacket} {r : ℕ}
    (hidle : dpp.ongoingTranslation = false) (hr : dpp.translationRequest = some r)
    (hbound : r < s.requests.length) (hevict : EvictsIdle p s.pfqMissingTranslation) :
    Ends Owned Unrelated (s.addToMissing p dpp) := by
  refine (addToQueue_ends p s.pfqMissingTranslation s.nextPlace dpp).bind fun q' hq' => ?_
  obtain ⟨q, i, rfl, hq⟩ := hq'
  have hsub : q.Sublist s.pfqMissingTranslation := by
    rcases hq with rfl | ⟨-, rfl⟩
    · exact .refl _
    · exact List.eraseIdx_sublist _ _
  have htrans : q.filterMap Node.translation =
      s.pfqMissingTranslation.filterMap Node.translation := by
    rcases hq with rfl | ⟨hfull, rfl⟩
    · rfl
    · exact filterMap_eraseIdx_of_none fun n hn => n.translation_eq_none (hevict hfull n hn)
  have hnew : Node.translation ⟨s.nextPlace, dpp⟩ = none := Node.translation_eq_none hidle
  refine ⟨?_, ?_, ?_, ?_, hs.onOwn⟩
  · -- the place of the new packet is fresh
    rw [List.map_insertIdx]
    refine nodup_insertIdx (hs.nodup.sublist (hsub.map _)) fun hmem => ?_
    obtain ⟨n, hn, hplace⟩ := List.mem_map.mp hmem
    exact absurd hplace (hs.fresh n (hsub.subset hn)).ne
  · intro n hn
    rcases List.eq_or_mem_of_mem_insertIdx hn with rfl | hn
    · exact Nat.lt_succ_self _
    · exact (hs.fresh n (hsub.subset hn)).trans (Nat.lt_succ_self _)
  · intro n hn
    rcases List.eq_or_mem_of_mem_insertIdx hn with rfl | hn
    · exact ⟨r, hr, hbound⟩
    · exact hs.request n (hsub.subset hn)
  · rw [filterMap_insertIdx_of_none hnew, htrans]
    exact hs.inTlb

/-! ## Raising a priority -/

/-- A rearrangement of the waiting packets that leaves those alone that are being translated. -/
structure Kept (q q' : List Node) : Prop where
  places : q'.map Node.place = q.map Node.place
  translations : q'.filterMap Node.translation = q.filterMap Node.translation
  requests : ∀ n ∈ q', ∃ m ∈ q, n.dp.translationRequest = m.dp.translationRequest

theorem Kept.refl (q : List Node) : Kept q q := ⟨rfl, rfl, fun n hn => ⟨n, hn, rfl⟩⟩

theorem Kept.trans {q' q'' : List Node} (h : Kept q q') (h' : Kept q' q'') : Kept q q'' where
  places := h'.places.trans h.places
  translations := h'.translations.trans h.translations
  requests n hn := by
    obtain ⟨m, hm, hnm⟩ := h'.requests n hn
    obtain ⟨l, hl, hml⟩ := h.requests m hm
    exact ⟨l, hl, hnm.trans hml⟩

/-- Overwriting an entry with one that stands for the same translation. -/
theorem Kept.set {q₀ : List Node} (h : Kept q₀ q) {i : ℕ} {n' : Node} (hn : q[i]? = some n)
    (hplace : n'.place = n.place) (htrans : n'.translation = n.translation)
    (hreq : ∃ m ∈ q₀, n'.dp.translationRequest = m.dp.translationRequest) :
    Kept q₀ (q.set i n') where
  places := by
    rw [← h.places, List.map_set, hplace]
    refine List.ext_getElem? fun j => ?_
    by_cases hj : i = j
    · subst hj
      rw [List.getElem?_set_self', List.getElem?_map, hn]
      rfl
    · rw [List.getElem?_set_ne hj]
  translations := by
    rw [← h.translations]
    refine filterMap_set_of_eq fun x hx => ?_
    obtain rfl := Option.some.inj (hn.symm.trans hx)
    exact htrans
  requests m hm := by
    rcases List.mem_or_eq_of_mem_set hm with hm | rfl
    · exact h.requests m hm
    · exact hreq

/-- Swapping two packets that are not being translated. -/
theorem kept_swapEntries {it prev : ℕ} {m : Node} (hn : q[it]? = some n) (hm : q[prev]? = some m)
    (hne : it ≠ prev) (hidle : n.dp.ongoingTranslation = false)
    (hidle' : m.dp.ongoingTranslation = false) :
    Kept q (swapEntries q it prev) := by
  have htrans : ∀ k l : Node, k.dp.ongoingTranslation = false → l.dp.ongoingTranslation = false →
      k.translation = l.translation := fun k l hk hl => by
    rw [Node.translation_eq_none hk, Node.translation_eq_none hl]
  have hfirst : Kept q (q.set it { n with dp := m.dp }) :=
    (Kept.refl q).set hn rfl (htrans ⟨n.place, m.dp⟩ n hidle' hidle)
      ⟨m, List.mem_of_getElem? hm, rfl⟩
  have hm' : (q.set it { n with dp := m.dp })[prev]? = some m := by
    rw [List.getElem?_set_ne hne]
    exact hm
  unfold swapEntries
  simp only [hn, hm]
  exact hfirst.set hm' rfl (htrans ⟨m.place, n.dp⟩ m hidle hidle')
    ⟨n, List.mem_of_getElem? hn, rfl⟩

theorem getElem?_swapEntries {it prev : ℕ} {m : Node} (hn : q[it]? = some n)
    (hm : q[prev]? = some m) (hlt : prev < it) :
    (swapEntries q it prev)[prev]? = some { m with dp := n.dp } ∧
      ∀ j < prev, (swapEntries q it prev)[j]? = q[j]? := by
  unfold swapEntries
  simp only [hn, hm]
  constructor
  · rw [List.getElem?_set_self', List.getElem?_set_ne hlt.ne', hm]
    rfl
  · intro j hj
    rw [List.getElem?_set_ne hj.ne', List.getElem?_set_ne (hj.trans hlt).ne']

/-- A packet moves past others that are not being translated. -/
theorem kept_moveUp {it prev : ℕ} (hn : q[it]? = some n) (hle : prev ≤ it)
    (hidle : ∀ j < prev, ∀ m ∈ q[j]?, m.dp.priority < n.dp.priority →
      m.dp.ongoingTranslation = false ∧ n.dp.ongoingTranslation = false) :
    Kept q (moveUp q it prev) := by
  induction prev generalizing q it n with
  | zero => exact Kept.refl q
  | succ prev ih =>
    have hrest : ∀ j < prev, ∀ m ∈ q[j]?, m.dp.priority < n.dp.priority →
        m.dp.ongoingTranslation = false ∧ n.dp.ongoingTranslation = false :=
      fun j hj => hidle j (by omega)
    simp only [moveUp, hn]
    by_cases habove : above n.dp q prev
    · rw [if_pos habove]
      unfold above at habove
      rcases Option.eq_none_or_eq_some q[prev]? with hm | ⟨m, hm⟩
      · rw [hm] at habove
        cases habove
      · rw [hm] at habove
        obtain ⟨hm_idle, hn_idle⟩ := hidle prev (Nat.lt_succ_self _) m hm (of_decide_eq_true habove)
        obtain ⟨hself, hbelow⟩ := getElem?_swapEntries hn hm (by omega)
        refine (kept_swapEntries hn hm (by omega) hn_idle hm_idle).trans
          (ih hself le_rfl fun j hj => ?_)
        rw [hbelow j hj]
        exact hrest j hj
    · rw [if_neg habove]
      exact ih hn (by omega) hrest

/-- The packet whose priority `alreadyInQueue` raises moves past no other when either of the
two is being translated. -/
def RaisesIdle (q : List Node) (pfi : PrefetchInfo) (priority : ℤ) : Prop :=
  ∀ n ∈ q[(findAddr pfi q).2]?, n.dp.priority < priority →
    ∀ j < (findAddr pfi q).2, ∀ m ∈ q[j]?, m.dp.priority < priority →
      m.dp.ongoingTranslation = false ∧ n.dp.ongoingTranslation = false

theorem kept_alreadyInQueue {priority : ℤ} (hraise : RaisesIdle q pfi priority) :
    Kept q (alreadyInQueue q pfi priority).2 := by
  unfold alreadyInQueue
  generalize hit : (findAddr pfi q).2 = it at hraise
  unfold RaisesIdle at hraise
  rw [hit] at hraise
  rcases Option.eq_none_or_eq_some q[it]? with hn | ⟨n, hn⟩
  · simp only [hit, hn]
    exact Kept.refl q
  · simp only [hit, hn]
    by_cases hlow : n.dp.priority < priority
    · rw [if_pos hlow]
      have hlen : it < q.length := (List.getElem?_eq_some_iff.mp hn).1
      have hraised : Kept q (q.set it { n with dp := { n.dp with priority := priority } }) :=
        (Kept.refl q).set hn rfl rfl ⟨n, List.mem_of_getElem? hn, rfl⟩
      refine hraised.trans
        (kept_moveUp (List.getElem?_set_self hlen) le_rfl fun j hj m hm hprio => ?_)
      rw [List.getElem?_set_ne hj.ne'] at hm
      exact hraise n hn hlow j hj m hm hprio
    · rw [if_neg hlow]
      exact Kept.refl q

/-- When the address is not in the queue the iterator stands at the end. -/
theorem findAddr_end (h : (findAddr pfi q).1 = false) :
    (findAddr pfi q).2 = q.length := by
  induction q with
  | nil => rfl
  | cons n q ih =>
    unfold findAddr at h ⊢
    by_cases hsame : n.dp.pfInfo.sameAddr pfi
    · rw [if_pos hsame] at h
      cases h
    · rw [if_neg hsame] at h ⊢
      rw [List.length_cons, ← ih h]

/-- Then nothing moves. -/
theorem alreadyInQueue_of_not_found (priority : ℤ) (h : (findAddr pfi q).1 = false) :
    alreadyInQueue q pfi priority = (false, q) := by
  unfold alreadyInQueue
  simp only [h, findAddr_end h, List.getElem?_eq_none le_rfl]

theorem alreadyInQueue_fst (q : List Node) (pfi : PrefetchInfo) (priority : ℤ) :
    (alreadyInQueue q pfi priority).1 = (findAddr pfi q).1 := by
  unfold alreadyInQueue
  dsimp only
  split
  · split <;> rfl
  · rfl

/-- A rearrangement that leaves the translations alone keeps the invariant. -/
theorem Owned.of_kept (hs : Owned s) (h : Kept s.pfqMissingTranslation q) :
    Owned { s with pfqMissingTranslation := q } := by
  refine hs.of_sublist ?_ h.requests le_rfl rfl ?_ hs.onOwn
  · have hplaces : q.map Node.place = s.places := h.places
    exact hplaces ▸ List.Sublist.refl _
  · have htlb := hs.inTlb
    rw [← h.translations] at htlb
    exact htlb

/-! ## Starting and ending a translation -/

/-- The waiting packet at a place, with the packets before and behind it. -/
theorem Owned.split (hs : Owned s) (hn : n ∈ s.pfqMissingTranslation) :
    ∃ before behind, s.pfqMissingTranslation = before ++ n :: behind ∧
      (∀ m ∈ before, m.place ≠ n.place) ∧ ∀ m ∈ behind, m.place ≠ n.place := by
  obtain ⟨before, behind, hsplit⟩ := List.append_of_mem hn
  have hnodup := hs.nodup
  rw [hsplit, List.map_append, List.map_cons, List.nodup_append, List.nodup_cons] at hnodup
  obtain ⟨-, ⟨hbehind, -⟩, hbefore⟩ := hnodup
  refine ⟨before, behind, hsplit, fun m hm => ?_, fun m hm heq => ?_⟩
  · exact hbefore _ (List.mem_map_of_mem hm) _ List.mem_cons_self
  · exact hbehind (heq ▸ List.mem_map_of_mem hm)

section Split

variable {s : Queued} {before behind : List Node} {n : Node}

theorem entry_of_split (hsplit : s.pfqMissingTranslation = before ++ n :: behind)
    (hbefore : ∀ m ∈ before, m.place ≠ n.place) : s.entry n.place = some n := by
  unfold Queued.entry
  rw [hsplit, List.find?_append, List.find?_eq_none.mpr fun m hm => by simpa using hbefore m hm,
    Option.none_or, List.find?_cons_of_pos (by simp)]

theorem eraseP_of_split (hbefore : ∀ m ∈ before, m.place ≠ n.place) :
    (before ++ n :: behind).eraseP (fun m => m.place = n.place) = before ++ behind := by
  rw [List.eraseP_append_right _ fun m hm => by simpa using hbefore m hm,
    List.eraseP_cons_of_pos (by simp)]

theorem setOngoing_of_split (hsplit : s.pfqMissingTranslation = before ++ n :: behind)
    (hbefore : ∀ m ∈ before, m.place ≠ n.place) (hbehind : ∀ m ∈ behind, m.place ≠ n.place)
    (b : Bool) :
    (s.setOngoing n.place b).pfqMissingTranslation =
      before ++ { n with dp := { n.dp with ongoingTranslation := b } } :: behind := by
  have hother : ∀ l : List Node, (∀ m ∈ l, m.place ≠ n.place) →
      l.map (fun m => if m.place = n.place then
        { m with dp := { m.dp with ongoingTranslation := b } } else m) = l := by
    intro l hl
    refine (List.map_congr_left fun m hm => ?_).trans (List.map_id l)
    rw [if_neg (hl m hm)]
    rfl
  unfold Queued.setOngoing
  dsimp only
  rw [hsplit, List.map_append, List.map_cons, if_pos rfl, hother before hbefore,
    hother behind hbehind]

end Split

/-- The state after the call of `translateTiming` for a waiting packet. -/
def Queued.started (s : Queued) (n : Node) (r : ℕ) : Queued :=
  { s.setOngoing n.place true with inTlb := s.inTlb ++ [⟨n.place, r, n.dp.pfInfo⟩] }

/-- Starting the translation of a packet that is not being translated. -/
theorem Owned.start (hs : Owned s) (hn : n ∈ s.pfqMissingTranslation) {r : ℕ}
    (hr : n.dp.translationRequest = some r) (hidle : n.dp.ongoingTranslation = false) :
    Owned (s.started n r) ∧ (s.started n r).places = s.places := by
  obtain ⟨before, behind, hsplit, hbefore, hbehind⟩ := hs.split hn
  have hset : (s.started n r).pfqMissingTranslation =
      before ++ { n with dp := { n.dp with ongoingTranslation := true } } :: behind :=
    setOngoing_of_split hsplit hbefore hbehind true
  have hplaces : (s.started n r).places = s.places := by
    unfold Queued.places
    rw [hset, hsplit, List.map_append, List.map_append, List.map_cons, List.map_cons]
  refine ⟨hs.of_sublist (hplaces ▸ .refl _) ?_ le_rfl rfl ?_ hs.onOwn, hplaces⟩
  · intro m hm
    rw [hset] at hm
    rw [hsplit]
    rcases List.mem_append.mp hm with hm | hm
    · exact ⟨m, List.mem_append_left _ hm, rfl⟩
    · rcases List.mem_cons.mp hm with rfl | hm
      · exact ⟨n, List.mem_append_right _ List.mem_cons_self, rfl⟩
      · exact ⟨m, List.mem_append_right _ (List.mem_cons_of_mem _ hm), rfl⟩
  · have hnew : Node.translation { n with dp := { n.dp with ongoingTranslation := true } } =
        some ⟨n.place, r, n.dp.pfInfo⟩ := Node.translation_eq_some.mpr ⟨rfl, hr, rfl, rfl⟩
    have htlb := hs.inTlb
    rw [hsplit, List.filterMap_append, List.filterMap_cons_none (n.translation_eq_none hidle)] at htlb
    rw [hset, List.filterMap_append, List.filterMap_cons_some hnew]
    exact (htlb.append_right _).trans
      ((List.perm_append_singleton _ _).trans List.perm_middle.symm)

/-- The waiting packet of a translation in the TLB. -/
theorem Owned.owner (hs : Owned s) (ht : t ∈ s.inTlb) :
    ∃ n ∈ s.pfqMissingTranslation, n.translation = some t := by
  have hmem := hs.inTlb.mem_iff.mp ht
  exact List.mem_filterMap.mp hmem

/-- The end of a translation of the packet `n` removes it from the queue. -/
structure Finished (s : Queued) (rest : List Node) (n : Node) (failed : Bool) (paddr : BitVec 64)
    (x : Queued × Option DeferredPacket) : Prop where
  missing : x.1.pfqMissingTranslation = rest
  next : s.nextPlace ≤ x.1.nextPlace
  requests : x.1.requests = s.requests
  inTlb : x.1.inTlb = s.inTlb
  completions : x.1.completions = s.completions
  queued : ∀ dp ∈ x.2, failed = false ∧ dp.pfInfo = n.dp.pfInfo ∧
    dp.translationRequest = n.dp.translationRequest ∧ dp.pkt.map (·.paddr) = some paddr

theorem translationComplete_ends {failed : Bool}
    (hsplit : s.pfqMissingTranslation = before ++ n :: behind)
    (hbefore : ∀ m ∈ before, m.place ≠ n.place)
    (hpaddr : failed = false → ∃ r req, n.dp.translationRequest = some r ∧
      s.requests[r]? = some req ∧ req.paddr = some paddr) :
    Ends (Finished s (before ++ behind) n failed paddr) Unrelated
      (s.translationComplete p env n.place failed) := by
  unfold Queued.translationComplete
  rw [entry_of_split hsplit hbefore, hsplit, eraseP_of_split hbefore]
  show Ends _ _ (if failed = true then _ else _)
  cases failed with
  | true => exact ⟨rfl, le_rfl, rfl, rfl, rfl, fun _ h => absurd h (Option.not_mem_none _)⟩
  | false =>
    obtain ⟨r, req, hr, hreq, hpa⟩ := hpaddr rfl
    rw [if_neg (by simp), hr]
    show Ends _ _ (orFail _ s.requests[r]? >>= _)
    rw [hreq]
    show Ends _ _ (orFail _ req.paddr >>= _)
    rw [hpa]
    show Ends _ _ (if _ then _ else _)
    split_ifs with hredundant
    · exact ⟨rfl, le_rfl, rfl, rfl, rfl, fun _ h => absurd h (Option.not_mem_none _)⟩
    · refine (addToPfq_ends p s _).bind ?_
      rintro s' ⟨pfq, rfl⟩
      refine ⟨rfl, Nat.le_succ _, rfl, rfl, rfl, ?_⟩
      rintro dp hdp
      obtain rfl := Option.some.inj hdp
      exact ⟨rfl, rfl, rfl, rfl⟩

theorem finish_ends {failed : Bool} (hsplit : s.pfqMissingTranslation = before ++ n :: behind)
    (hbefore : ∀ m ∈ before, m.place ≠ n.place) (hbehind : ∀ m ∈ behind, m.place ≠ n.place)
    (hongoing : n.dp.ongoingTranslation = true)
    (hpaddr : failed = false → ∃ r req, n.dp.translationRequest = some r ∧
      s.requests[r]? = some req ∧ req.paddr = some paddr) :
    Ends (Finished s (before ++ behind) n failed paddr) Unrelated
      (s.finish p env n.place failed) := by
  unfold Queued.finish
  rw [entry_of_split hsplit hbefore]
  show Ends _ _ (require _ n.dp.ongoingTranslation >>= _)
  rw [hongoing]
  let n' : Node := { n with dp := { n.dp with ongoingTranslation := false } }
  have hset : (s.setOngoing n.place false).pfqMissingTranslation = before ++ n' :: behind :=
    setOngoing_of_split hsplit hbefore hbehind false
  have hends : Ends (Finished (s.setOngoing n.place false) (before ++ behind) n' failed paddr)
      Unrelated ((s.setOngoing n.place false).translationComplete p env n'.place failed) :=
    translationComplete_ends hset hbefore hpaddr
  exact hends.mono fun x hx =>
    ⟨hx.missing, hx.next, hx.requests, hx.inTlb, hx.completions, hx.queued⟩

/-- What the end of a translation leaves behind. -/
theorem Owned.finished {s₁ : Queued} (hs : Owned s) {a : TlbAnswer}
    {x : Queued × Option DeferredPacket} (hsplit : s.pfqMissingTranslation = before ++ n :: behind)
    (htn : n.translation = some t) (hnext : s₁.nextPlace = s.nextPlace)
    (hlength : s₁.requests.length = s.requests.length) (htlb : s₁.inTlb = s.inTlb.erase t)
    (hdone : s₁.completions = s.completions) (ha : a ≠ .fault → a = .translated paddr)
    (hx : Finished s₁ (before ++ behind) n (a = .fault) paddr x) :
    Owned { x.1 with completions := x.1.completions ++ [⟨t, a, x.2⟩] } := by
  obtain ⟨-, hreq, -, hinfo⟩ := Node.translation_eq_some.mp htn
  have hsub : (before ++ behind).Sublist s.pfqMissingTranslation := by
    rw [hsplit]
    exact (List.sublist_cons_self n behind).append_left before
  refine hs.of_sublist ?_ ?_ (hnext ▸ hx.next)
    ((congrArg List.length hx.requests).trans hlength) ?_ ?_
  · show (x.1.pfqMissingTranslation.map Node.place).Sublist _
    rw [hx.missing]
    exact hsub.map _
  · intro m hm
    have hm : m ∈ x.1.pfqMissingTranslation := hm
    rw [hx.missing] at hm
    exact ⟨m, hsub.subset hm, rfl⟩
  · show x.1.inTlb.Perm (x.1.pfqMissingTranslation.filterMap Node.translation)
    have hperm := hs.inTlb
    rw [hsplit, List.filterMap_append, List.filterMap_cons_some htn] at hperm
    have herase := (hperm.trans List.perm_middle).erase t
    rw [List.erase_cons_head, ← List.filterMap_append] at herase
    rw [hx.inTlb, htlb, hx.missing]
    exact herase
  · intro c hc
    rcases List.mem_append.mp hc with hc | hc
    · rw [hx.completions, hdone] at hc
      exact hs.onOwn c hc
    · obtain rfl := List.mem_singleton.mp hc
      intro dp hdp
      obtain ⟨hfailed, hdpinfo, hdpreq, hpkt⟩ := hx.queued dp hdp
      exact ⟨hdpinfo.trans hinfo, hdpreq.trans hreq, paddr, ha (of_decide_eq_false hfailed), hpkt⟩

/-- **An answer of the TLB reaches the packet its translation was started for**, and removes no
other. -/
theorem Owned.answer {p : Params} {env : Env} {s : Queued} (hs : Owned s) {t : Translation}
    (ht : t ∈ s.inTlb) (a : TlbAnswer) :
    Ends (fun s' => Owned s' ∧ ∀ place ∈ s.places, place ≠ t.place → place ∈ s'.places) Unrelated
      (s.answer p env t a) := by
  obtain ⟨n, hn, htn⟩ := hs.owner ht
  obtain ⟨hongoing, hreq, hplace, -⟩ := Node.translation_eq_some.mp htn
  obtain ⟨before, behind, hsplit, hbefore, hbehind⟩ := hs.split hn
  obtain ⟨r, hr, hbound⟩ := hs.request n hn
  obtain rfl := Option.some.inj (hreq.symm.trans hr)
  obtain ⟨paddr, ha⟩ : ∃ paddr, a ≠ .fault → a = .translated paddr := by
    cases a with
    | fault => exact ⟨0, fun h => absurd rfl h⟩
    | translated paddr => exact ⟨paddr, fun _ => rfl⟩
  have hmissing : (s.filled t a).pfqMissingTranslation = before ++ n :: behind := by
    cases a <;> exact hsplit
  have hfilled : decide (a = .fault) = false → ∃ r req, n.dp.translationRequest = some r ∧
      (s.filled t a).requests[r]? = some req ∧ req.paddr = some paddr := by
    intro hfault
    rw [ha (of_decide_eq_false hfault)]
    refine ⟨t.request, { s.requests[t.request] with paddr := some paddr }, hreq, ?_, rfl⟩
    show (s.requests.modify t.request _)[t.request]? = _
    rw [List.getElem?_modify_eq, List.getElem?_eq_getElem hbound]
    rfl
  unfold Queued.answer
  rw [← hplace]
  refine (finish_ends hmissing hbefore hbehind hongoing hfilled).bind fun x hx => ⟨?_, ?_⟩
  · refine hs.finished hsplit htn ?_ ?_ ?_ ?_ ha hx
    · cases a <;> rfl
    · cases a with
      | fault => rfl
      | translated => exact List.length_modify _ _ _
    · cases a <;> rfl
    · cases a <;> rfl
  · intro place hmem hne
    show place ∈ x.1.pfqMissingTranslation.map Node.place
    unfold Queued.places at hmem
    rw [hsplit] at hmem
    rw [hx.missing]
    simp only [List.map_append, List.map_cons, List.mem_append, List.mem_cons] at hmem ⊢
    rcases hmem with hmem | rfl | hmem
    · exact .inl hmem
    · exact absurd rfl hne
    · exact .inr hmem

/-- Starting a translation, which the TLB may answer at once. -/
theorem Owned.startTranslation (hs : Owned s) {place : ℕ} (hplace : place ∈ s.places) :
    Ends (fun s' => Owned s' ∧ ∀ place' ∈ s.places, place' ≠ place → place' ∈ s'.places) Unrelated
      (s.startTranslation p env tlb place) := by
  obtain ⟨n, hn, rfl⟩ := List.mem_map.mp hplace
  obtain ⟨before, behind, hsplit, hbefore, -⟩ := hs.split hn
  obtain ⟨r, hr, -⟩ := hs.request n hn
  unfold Queued.startTranslation
  rw [entry_of_split hsplit hbefore]
  show Ends _ _ (orFail _ n.dp.translationRequest >>= _)
  rw [hr]
  show Ends _ _ (if _ then _ else _)
  split_ifs with hongoing
  · exact ⟨hs, fun _ h _ => h⟩
  · obtain ⟨hstart, hplaces⟩ := hs.start hn hr (Bool.not_eq_true _ ▸ hongoing)
    refine Ends.bind (P := fun _ => True) ?_ fun _ _ => ?_
    · cases p.hasTlb <;> trivial
    · dsimp only
      cases tlb r with
      | none => exact ⟨hstart, fun _ h _ => hplaces.symm ▸ h⟩
      | some a =>
        refine (hstart.answer (List.mem_append_right _ (List.mem_singleton.mpr rfl)) a).mono ?_
        rintro s' ⟨hs', hkeep⟩
        exact ⟨hs', fun place' h => hkeep place' (hplaces.symm ▸ h)⟩

/-- The entry behind a waiting packet is another waiting packet. -/
theorem after_mem (hnodup : (q.map Node.place).Nodup) {place next : ℕ}
    (h : Queued.after place q = some next) : next ∈ q.map Node.place ∧ next ≠ place := by
  induction q with
  | nil => cases h
  | cons n q ih =>
    rw [List.map_cons, List.nodup_cons] at hnodup
    unfold Queued.after at h
    split_ifs at h with hplace
    · obtain ⟨m, hm, rfl⟩ := Option.map_eq_some_iff.mp h
      have hmem : m.place ∈ q.map Node.place := List.mem_map_of_mem (List.mem_of_head? hm)
      refine ⟨List.mem_cons_of_mem _ hmem, ?_⟩
      rintro heq
      exact hnodup.1 (by rw [hplace, ← heq]; exact hmem)
    · exact ⟨List.mem_cons_of_mem _ (ih hnodup.2 h).1, (ih hnodup.2 h).2⟩

theorem Owned.processFrom (hs : Owned s) (max : ℕ) {it : Option ℕ}
    (hit : ∀ place ∈ it, place ∈ s.places) :
    Ends Owned Unrelated (s.processFrom p env tlb max it) := by
  induction max generalizing s it with
  | zero =>
    unfold Queued.processFrom
    exact hs
  | succ max ih =>
    cases it with
    | none =>
      unfold Queued.processFrom
      exact hs
    | some place =>
      unfold Queued.processFrom
      refine (hs.startTranslation (hit place rfl)).bind ?_
      rintro s' ⟨hs', hkeep⟩
      refine ih hs' fun next hnext => ?_
      obtain ⟨hmem, hne⟩ := after_mem hs.nodup hnext
      exact hkeep next hmem hne

theorem Owned.processMissingTranslations (hs : Owned s) (max : ℕ) :
    Ends Owned Unrelated (s.processMissingTranslations p env tlb max) := by
  refine hs.processFrom max fun place hplace => ?_
  obtain ⟨n, hn, rfl⟩ := Option.map_eq_some_iff.mp hplace
  exact List.mem_map_of_mem (List.mem_of_head? hn)

theorem Owned.getPacket (hs : Owned s) :
    Ends (fun x => Owned x.1) Unrelated (s.getPacket p env tlb) := by
  unfold Queued.getPacket
  refine Ends.bind (P := Owned) ?_ fun s₁ hs₁ => ?_
  · unfold Queued.refill
    split_ifs
    · exact hs.processMissingTranslations _
    · exact hs
  · rcases hpfq : s₁.pfq with _ | ⟨front, pfq⟩
    · exact hs₁
    · refine Ends.bind (P := fun _ => True) ?_ fun _ _ => ?_
      · cases front.dp.pkt.isSome <;> trivial
      · have hs₂ : Owned { s₁ with pfq := pfq, issuedPrefetches := s₁.issuedPrefetches + 1 } :=
          hs₁.of_pfq rfl le_rfl rfl rfl rfl
        exact (hs₂.processMissingTranslations _).bind fun _ h => h

/-! ## Inserting -/

/-- The filter of `insert` drops the prefetch. -/
def Filtered (p : Params) (s : Queued) (pfi : PrefetchInfo) : Prop :=
  p.queueFilter = true ∧
    ((findAddr pfi s.pfq).1 = true ∨ (findAddr pfi s.pfqMissingTranslation).1 = true)

/-- `insert` has to ask the TLB for the address of the prefetch. -/
def needsTranslation (p : Params) (pkt : Queued.Access) (pfi : PrefetchInfo) : Bool :=
  match Queued.target p pkt pfi with
  | .ok (.translate _) => true
  | _ => false

/-- **The condition.**  An insertion neither moves a packet that is being translated, nor moves
another past it, nor removes it. -/
def InsertsIdle (p : Params) (pkt : Queued.Access) (s : Queued) (c : PrefetchInfo × ℤ) : Prop :=
  (p.queueFilter = true → (findAddr c.1 s.pfq).1 = false →
    RaisesIdle s.pfqMissingTranslation c.1 c.2) ∧
  (¬ Filtered p s c.1 → needsTranslation p pkt c.1 = true → EvictsIdle p s.pfqMissingTranslation)

/-- The failures before anything is queued are those of the access. -/
theorem target_ends (p : Params) (pkt : Queued.Access) (pfi : PrefetchInfo) :
    Ends (fun _ => True) Unrelated (Queued.target p pkt pfi) := by
  have hrequest : ∀ addr c, Ends (fun _ => True) Unrelated
      (Queued.createPrefetchRequest p addr pfi c) := by
    intro addr c
    unfold Queued.createPrefetchRequest
    cases pfi.validPC <;> trivial
  have hpaddr : Ends (fun _ => True) Unrelated (orFail PrefetchFail.noPaddr pkt.paddr) := by
    cases pkt.paddr <;> trivial
  unfold Queued.target
  refine Ends.bind (P := fun _ => True) ?_ fun orig _ => ?_
  · unfold Queued.origAddr
    split_ifs
    · cases pkt.vaddr <;> trivial
    · exact hpaddr
  · dsimp only
    split
    · split
      · exact hpaddr.bind fun _ _ => trivial
      · trivial
    · split
      · trivial
      · split
        · exact (hrequest _ _).bind fun _ _ => trivial
        · split
          · exact (hrequest _ _).bind fun _ _ => trivial
          · trivial

theorem Owned.enqueue {pkt : Queued.Access} (hs : Owned s) {priority : ℤ}
    (hevict : needsTranslation p pkt pfi = true → EvictsIdle p s.pfqMissingTranslation) :
    Ends Owned Unrelated (s.enqueue p env pkt pfi priority) := by
  have htarget := target_ends p pkt pfi
  unfold needsTranslation at hevict
  unfold Queued.enqueue
  rcases hres : Queued.target p pkt pfi with e | target
  · rw [hres] at htarget
    exact htarget
  · rw [hres] at hevict
    cases target with
    | drop => exact hs
    | physical paddr =>
      show Ends _ _ (if _ then _ else _)
      split_ifs
      · exact hs
      · refine (addToPfq_ends p s _).mono ?_
        rintro s' ⟨pfq, rfl⟩
        exact hs.of_pfq rfl (Nat.le_succ _) rfl rfl rfl
    | translate req =>
      have hs' : Owned { s with requests := s.requests ++ [req] } := by
        refine ⟨hs.nodup, hs.fresh, fun n hn => ?_, hs.inTlb, hs.onOwn⟩
        obtain ⟨r, hr, hbound⟩ := hs.request n hn
        refine ⟨r, hr, ?_⟩
        rw [List.length_append]
        omega
      refine hs'.addToMissing rfl rfl ?_ (hevict rfl)
      rw [List.length_append]
      exact Nat.lt_succ_self _

/-- One insertion that meets the condition keeps the invariant. -/
theorem Owned.insert {pkt : Queued.Access} (hs : Owned s) {c : PrefetchInfo × ℤ}
    (hc : InsertsIdle p pkt s c) :
    Ends Owned Unrelated (Queued.insertStep p env pkt s c) := by
  obtain ⟨hraise, hevict⟩ := hc
  unfold Queued.insertStep Queued.insert
  by_cases hfilter : p.queueFilter = true
  · rw [if_pos hfilter]
    dsimp only
    rw [alreadyInQueue_fst, alreadyInQueue_fst]
    cases hpfq : (findAddr c.1 s.pfq).1 with
    | true => exact hs.of_pfq rfl le_rfl rfl rfl rfl
    | false =>
      rw [if_neg (by simp), alreadyInQueue_of_not_found c.2 hpfq]
      cases hmissing : (findAddr c.1 s.pfqMissingTranslation).1 with
      | true => exact hs.of_kept (kept_alreadyInQueue (hraise hfilter hpfq))
      | false =>
        rw [if_neg (by simp), alreadyInQueue_of_not_found c.2 hmissing]
        refine hs.enqueue (hevict ?_)
        rintro ⟨-, h | h⟩
        · rw [hpfq] at h
          cases h
        · rw [hmissing] at h
          cases h
  · rw [if_neg hfilter]
    exact hs.enqueue (hevict fun h => hfilter h.1)

/-! ## Runs -/

/-- The TLB answers only translations it is working on. -/
def Answers (s : Queued) : PrefetchAction → Prop
  | .answer _ k _ => k < s.inTlb.length
  | _ => True

/-- The condition on an action: each insertion of `notify` meets `InsertsIdle` in the state it
is made in. -/
def LeavesTranslations (p : Params) (s : Queued) : PrefetchAction → Prop
  | .notify env pkt pfi addresses =>
      Admitted (InsertsIdle p pkt) (Queued.insertStep p env pkt) (s.squash p pfi)
        ((s.squash p pfi).insertions p env pfi addresses)
  | _ => True

instance (q : List Node) (pfi : PrefetchInfo) (priority : ℤ) :
    Decidable (RaisesIdle q pfi priority) :=
  inferInstanceAs (Decidable (∀ n ∈ q[(findAddr pfi q).2]?, n.dp.priority < priority →
    ∀ j < (findAddr pfi q).2, ∀ m ∈ q[j]?, m.dp.priority < priority →
      m.dp.ongoingTranslation = false ∧ n.dp.ongoingTranslation = false))

instance (p : Params) (q : List Node) : Decidable (EvictsIdle p q) :=
  inferInstanceAs (Decidable (q.length = p.queueSize →
    ∀ n ∈ q[victim q]?, n.dp.ongoingTranslation = false))

instance (p : Params) (s : Queued) (pfi : PrefetchInfo) : Decidable (Filtered p s pfi) :=
  inferInstanceAs (Decidable (p.queueFilter = true ∧
    ((findAddr pfi s.pfq).1 = true ∨ (findAddr pfi s.pfqMissingTranslation).1 = true)))

instance (p : Params) (pkt : Queued.Access) (s : Queued) (c : PrefetchInfo × ℤ) :
    Decidable (InsertsIdle p pkt s c) :=
  inferInstanceAs (Decidable ((p.queueFilter = true → (findAddr c.1 s.pfq).1 = false →
    RaisesIdle s.pfqMissingTranslation c.1 c.2) ∧
    (¬ Filtered p s c.1 → needsTranslation p pkt c.1 = true →
      EvictsIdle p s.pfqMissingTranslation)))

instance (s : Queued) : ∀ a, Decidable (Answers s a)
  | .notify .. => .isTrue trivial
  | .getPacket .. => .isTrue trivial
  | .answer _ k _ => inferInstanceAs (Decidable (k < s.inTlb.length))

instance (p : Params) (s : Queued) : ∀ a, Decidable (LeavesTranslations p s a)
  | .notify env pkt pfi addresses => inferInstanceAs (Decidable (Admitted (InsertsIdle p pkt)
      (Queued.insertStep p env pkt) (s.squash p pfi)
      ((s.squash p pfi).insertions p env pfi addresses)))
  | .getPacket .. => .isTrue trivial
  | .answer .. => .isTrue trivial

theorem Owned.step (hs : Owned s) {a : PrefetchAction} (ha : Answers s a ∧ LeavesTranslations p s a)
    :
    Ends Owned Unrelated (s.step p a) := by
  cases a with
  | notify env pkt pfi addresses =>
    have hsquash : Owned (s.squash p pfi) := by
      unfold Queued.squash
      split_ifs
      · exact hs.of_pfq rfl le_rfl rfl rfl rfl
      · exact hs
    exact run_ends (fun _ _ h hc => h.insert hc) hsquash ha.2
  | getPacket env tlb => exact hs.getPacket.bind fun _ h => h
  | answer env k a =>
    have hk : s.inTlb[k]? = some (s.inTlb.get ⟨k, ha.1⟩) := List.getElem?_eq_getElem ha.1
    show Ends _ _ (orFail _ s.inTlb[k]? >>= _)
    rw [hk]
    exact (hs.answer (List.get_mem _ _) a).mono fun _ h => h.1

/-- **Translations end on the prefetch that started them.**  In every run whose insertions
leave the packets alone that are being translated, no bookkeeping of translations fails.  In
every state reached:

* the packet of a translation in the TLB waits at the place it was started from, and holds the
  request that is being translated;
* exactly the waiting packets with a translation in the TLB are marked as being translated;
* every translation that ended put in `pfq` at most the prefetch it was started for, with the
  physical address that the TLB returned. -/
theorem translations_own_prefetch (p : Params) (as : List PrefetchAction)
    (hallowed : Admitted (fun s a => Answers s a ∧ LeavesTranslations p s a) (Queued.step p)
      Queued.init as) :
    (∀ e, run (Queued.step p) Queued.init as = .error e → e.ofTranslation = false) ∧
      ∀ s, run (Queued.step p) Queued.init as = .ok s →
        (∀ t ∈ s.inTlb, ∃ n ∈ s.pfqMissingTranslation, s.entry t.place = some n ∧
          n.dp.translationRequest = some t.request ∧ n.dp.pfInfo = t.pfInfo) ∧
        (∀ n ∈ s.pfqMissingTranslation,
          n.dp.ongoingTranslation = true ↔ ∃ t ∈ s.inTlb, t.place = n.place) ∧
        ∀ c ∈ s.completions, c.OnOwn := by
  have hends := run_ends (fun _ _ h ha => Owned.step h ha) owned_init hallowed
  refine ⟨fun e he => ?_, fun s hrun => ?_⟩
  · rw [he] at hends
    exact hends
  · rw [hrun] at hends
    have hs : Owned s := hends
    refine ⟨fun t ht => ?_, fun n hn => ⟨fun hongoing => ?_, ?_⟩, hs.onOwn⟩
    · obtain ⟨n, hn, htn⟩ := hs.owner ht
      obtain ⟨-, hreq, hplace, hinfo⟩ := Node.translation_eq_some.mp htn
      obtain ⟨before, behind, hsplit, hbefore, -⟩ := hs.split hn
      exact ⟨n, hn, hplace ▸ entry_of_split hsplit hbefore, hreq, hinfo⟩
    · obtain ⟨r, hr, -⟩ := hs.request n hn
      have htn : n.translation = some ⟨n.place, r, n.dp.pfInfo⟩ :=
        Node.translation_eq_some.mpr ⟨hongoing, hr, rfl, rfl⟩
      exact ⟨_, hs.inTlb.mem_iff.mpr (List.mem_filterMap.mpr ⟨n, hn, htn⟩), rfl⟩
    · rintro ⟨t, ht, hplace⟩
      obtain ⟨m, hm, htm⟩ := hs.owner ht
      obtain ⟨hongoing, -, hm_place, -⟩ := Node.translation_eq_some.mp htm
      have hnm : n = m :=
        List.inj_on_of_nodup_map hs.nodup hn hm (hplace.symm.trans hm_place.symm)
      exact hnm ▸ hongoing

/-! ## Translations that are disturbed -/

/-- A prefetcher with the default parameters, apart from the size of its queues. -/
def testParams (queueSize : ℕ) : Params where
  blkSize := 64
  pageBytes := 4096
  requestorId := 0
  queueSize := queueSize
  latency := 1
  clockPeriod := 500
  queueSquash := true
  queueFilter := true
  cacheSnoop := false
  tagPrefetch := true
  useVirtualAddresses := true
  throttleControlPct := 0
  hasTlb := true

def testEnv : Env := ⟨0, fun _ _ => false, fun _ _ => false, 0⟩

/-- An access at `0x1000` for which a prefetch to page `page` is found. -/
def crossing (page : ℕ) (priority : ℤ) : PrefetchAction :=
  .notify testEnv ⟨some 0x1000, some 0x8000, some 0⟩ ⟨0x1000, 0x40, true, false⟩
    [(BitVec.ofNat 64 (page * 4096), priority)]

/-- The cache asks for a prefetch, and the TLB takes its time over the translations. -/
def slowTlb : PrefetchAction := .getPacket testEnv fun _ => none

def translatesTo (k : ℕ) (paddr : BitVec 64) : PrefetchAction :=
  .answer testEnv k (.translated paddr)

/-- Two translations are answered in the other order, one of them with a fault. -/
def undisturbed : List PrefetchAction :=
  [crossing 2 0, crossing 3 1, slowTlb, crossing 4 0, translatesTo 1 0x9000,
    .answer testEnv 0 .fault]

theorem translations_own_prefetch_undisturbed :
    Admitted (fun s a => Answers s a ∧ LeavesTranslations (testParams 4) s a)
        (Queued.step (testParams 4)) Queued.init undisturbed ∧
      ∀ s, run (Queued.step (testParams 4)) Queued.init undisturbed = .ok s →
        ∀ c ∈ s.completions, c.OnOwn := by
  have hallowed : Admitted (fun s a => Answers s a ∧ LeavesTranslations (testParams 4) s a)
      (Queued.step (testParams 4)) Queued.init undisturbed := by decide +kernel
  exact ⟨hallowed, fun s hs =>
    ((translations_own_prefetch (testParams 4) undisturbed hallowed).2 s hs).2.2⟩

/-- A full queue: the packet that is being translated is the oldest, and is removed. -/
def evicted : List PrefetchAction :=
  [crossing 2 0, slowTlb, crossing 3 0, crossing 4 0, translatesTo 0 0x9000]

/-- A second access raises the priority of a packet, which moves to the place of the packet
that is being translated. -/
def overtaken : List PrefetchAction :=
  [crossing 2 0, slowTlb, crossing 3 0, crossing 4 0, crossing 3 1]

/-- **Disturbed translations.**  The TLB answers a translation whose packet has been removed from
a full queue.  Or the packet has changed places with another, which is then found in its place
and is not being translated. -/
theorem translation_loses_prefetch :
    (Admitted Answers (Queued.step (testParams 2)) Queued.init evicted ∧
      run (Queued.step (testParams 2)) Queued.init evicted = .error .freedPacket) ∧
    Admitted Answers (Queued.step (testParams 32)) Queued.init
      (overtaken ++ [translatesTo 0 0x9000]) ∧
    (∃ s, run (Queued.step (testParams 32)) Queued.init overtaken = .ok s ∧
      ∃ t ∈ s.inTlb, ∃ n ∈ s.entry t.place,
        n.dp.translationRequest ≠ some t.request ∧ n.dp.ongoingTranslation = false) ∧
    run (Queued.step (testParams 32)) Queued.init (overtaken ++ [translatesTo 0 0x9000]) =
      .error .notOngoing := by
  refine ⟨⟨?_, ?_⟩, ?_, ?_, ?_⟩ <;> decide +kernel

end Gem5.Prefetch
