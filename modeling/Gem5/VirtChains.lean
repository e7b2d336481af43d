/-
# Descriptor chains

`updateChain` follows the `next` fields of the guest and tests for one thing only, whether it is
back at the first descriptor.  What it met on its way (`Walked`) decides how it ends (`Outcome`): it
returns at the end of a chain, panics back at the first descriptor, leaves the queue, or goes round
for ever once it meets another descriptor twice.  A chain that it returned (`Chain`) is finite, and
on it `chainRead` and `chainWrite` move the bytes of the buffers, taken one behind the other.
-/
import Gem5.VirtDescriptor

namespace Gem5.Virtio

open Runs Loop

namespace DescTable

variable {t : DescTable} {mem : GuestBytes} {this i j fuel : ℕ} {before : List ℕ}

/-! ## The walk of `updateChain` -/

/-- The descriptor as it is after `update`. -/
def fetched (t : DescTable) (mem : GuestBytes) (i : ℕ) : Option VringDesc :=
  (t.refresh mem i).descriptors[i]?

/-- The descriptor that follows in the chain. -/
def succ (t : DescTable) (mem : GuestBytes) (i : ℕ) : Option ℕ := (t.refresh mem i).next i

/-- The queue after several updates, the last one first. -/
def refreshAll (t : DescTable) (mem : GuestBytes) (is : List ℕ) : DescTable :=
  is.foldr (fun i t => t.refresh mem i) t

/-- **The walk from `this` is at a descriptor**, with the ones before it, the last one first. -/
inductive Walked (t : DescTable) (mem : GuestBytes) (this : ℕ) : ℕ → List ℕ → Prop
  | start : Walked t mem this this []
  | next {i j : ℕ} {before : List ℕ} : Walked t mem this i before → t.succ mem i = some j →
      j < t.descriptors.length → j ≠ this → Walked t mem this j (i :: before)

/-- **How `updateChain` ends**, or that it does not. -/
inductive Outcome (t : DescTable) (mem : GuestBytes) (this : ℕ) :
    Option (Except ChainFault DescTable) → Prop
  /-- A last descriptor: every one was met once and is up to date. -/
  | ends {i : ℕ} {before : List ℕ} : Walked t mem this i before → (i :: before).Nodup →
      t.succ mem i = none → Outcome t mem this (some (.ok (t.refreshAll mem (i :: before))))
  /-- Back at the first descriptor. -/
  | returns {i : ℕ} {before : List ℕ} : Walked t mem this i before → t.succ mem i = some this →
      Outcome t mem this (some (.error .loopInChain))
  /-- Outside the queue. -/
  | leaves {i j : ℕ} {before : List ℕ} : Walked t mem this i before → t.succ mem i = some j →
      t.descriptors.length ≤ j → Outcome t mem this (some (.error .noDescriptor))
  /-- At another descriptor for the second time. -/
  | circles {i : ℕ} {before : List ℕ} : Walked t mem this i before → i ∈ before →
      Outcome t mem this none

@[simp] theorem refresh_length : (t.refresh mem i).descriptors.length = t.descriptors.length := by
  unfold refresh
  split_ifs <;> simp

@[simp] theorem refreshAll_length (is : List ℕ) :
    (t.refreshAll mem is).descriptors.length = t.descriptors.length := by
  induction is with
  | nil => rfl
  | cons i is ih => exact refresh_length.trans ih

/-- What one update reads does not depend on the others. -/
theorem refresh_refreshAll (is : List ℕ) :
    ((t.refreshAll mem is).refresh mem i).descriptors[i]? = t.fetched mem i := by
  unfold fetched
  by_cases h : t.address = 0
  · have hall : t.refreshAll mem is = t := by
      induction is with
      | nil => rfl
      | cons j is ih =>
        show (t.refreshAll mem is).refresh mem j = t
        rw [ih, refresh, if_pos h]
    rw [hall]
  · have hall : (t.refreshAll mem is).address = t.address ∧
        (t.refreshAll mem is).byteOrder = t.byteOrder := by
      induction is with
      | nil => exact ⟨rfl, rfl⟩
      | cons j is ih =>
        show ((t.refreshAll mem is).refresh mem j).address = _ ∧
          ((t.refreshAll mem is).refresh mem j).byteOrder = _
        unfold refresh
        split_ifs <;> exact ih
    have hdesc : (t.refreshAll mem is).guestDesc mem i = t.guestDesc mem i := by
      simp only [guestDesc, hall]
    rw [refresh, refresh, if_neg (hall.1 ▸ h), if_neg h, hdesc]
    simp [List.getElem?_set]

theorem next_refreshAll (is : List ℕ) :
    ((t.refreshAll mem is).refresh mem i).next i = t.succ mem i := by
  rw [succ, next, next, refresh_refreshAll, fetched]

/-- Every descriptor that was updated is as it is in guest memory. -/
theorem refreshAll_getElem? {is : List ℕ} (hi : i ∈ is) :
    (t.refreshAll mem is).descriptors[i]? = t.fetched mem i := by
  induction is with
  | nil => cases hi
  | cons j is ih =>
    by_cases hij : i = j
    · rw [hij]
      exact refresh_refreshAll is
    · rw [← ih ((List.mem_cons.mp hi).resolve_left hij)]
      show ((t.refreshAll mem is).refresh mem j).descriptors[i]? = _
      unfold refresh
      split_ifs
      · rfl
      · exact List.getElem?_set_ne (Ne.symm hij)

theorem updateRound_eq (hi : i < t.descriptors.length) (is : List ℕ) {o : Option ℕ} :
    t.succ mem i = o → updateRound mem this (t.refreshAll mem is, i) = match o with
      | none => .inr (.ok (t.refreshAll mem (i :: is)))
      | some j => if j = this then .inr (.error .loopInChain)
          else .inl (t.refreshAll mem (i :: is), j) := by
  rintro rfl
  have hupdate : (t.refreshAll mem is).update mem i = .ok (t.refreshAll mem (i :: is)) :=
    bind_eq_ok.mpr ⟨(), require_ok (decide_eq_true (by rwa [refreshAll_length])), rfl⟩
  rw [updateRound, hupdate, ← next_refreshAll is]
  rfl

namespace Walked

theorem lt_length (h : Walked t mem this i before) (hthis : this < t.descriptors.length) :
    ∀ k ∈ i :: before, k < t.descriptors.length := by
  induction h with
  | start => simpa using hthis
  | next _ _ hj _ ih => exact List.forall_mem_cons.mpr ⟨hj, ih⟩

theorem here_lt (h : Walked t mem this i before) (hthis : this < t.descriptors.length) :
    i < t.descriptors.length := h.lt_length hthis i List.mem_cons_self

/-- The loop gets to where the walk is. -/
theorem loop_eq (h : Walked t mem this i before) (hthis : this < t.descriptors.length)
    (fuel : ℕ) : loop (updateRound mem this) (fuel + before.length) (t, this) =
      loop (updateRound mem this) fuel (t.refreshAll mem before, i) := by
  induction h generalizing fuel with
  | start => rfl
  | @next i j before hw hsucc _ hne ih =>
    rw [List.length_cons, ← Nat.add_assoc, Nat.add_right_comm, ih]
    apply loop_inl
    exact (updateRound_eq (hw.here_lt hthis) _ hsucc).trans (if_neg hne)

theorem yields (h : Walked t mem this i before) (hthis : this < t.descriptors.length)
    {r : Except ChainFault DescTable}
    (hr : updateRound mem this (t.refreshAll mem before, i) = .inr r) :
    Yields (updateRound mem this) (t, this) r :=
  ⟨1 + before.length, (h.loop_eq hthis 1).trans (loop_inr hr 0)⟩

theorem this_mem (h : Walked t mem this i before) : this ∈ i :: before := by
  induction h with
  | start => exact List.mem_cons_self
  | next _ _ _ _ ih => exact List.mem_cons_of_mem _ ih

/-- Every descriptor before the present one leads to another one that was met. -/
theorem succ_mem (h : Walked t mem this i before) {k : ℕ} (hk : k ∈ before) :
    ∃ j ∈ i :: before, t.succ mem k = some j ∧ j ≠ this := by
  induction h with
  | start => cases hk
  | next _ hsucc _ hne ih =>
    rcases List.mem_cons.mp hk with rfl | hk
    · exact ⟨_, List.mem_cons_self, hsucc, hne⟩
    · obtain ⟨j, hj, hkj⟩ := ih hk
      exact ⟨j, List.mem_cons_of_mem _ hj, hkj⟩

/-- A walk that met a descriptor twice stays among those it met. -/
theorem not_yields (h : Walked t mem this i before) (hi : i ∈ before)
    (hthis : this < t.descriptors.length) (r : Except ChainFault DescTable) :
    ¬ Yields (updateRound mem this) (t, this) r := by
  intro hy
  have hstay : ∀ k ∈ i :: before, k ∈ before := List.forall_mem_cons.mpr ⟨hi, fun _ hk => hk⟩
  have hround : ∀ k is, k ∈ before → ∃ j ∈ before, updateRound mem this (t.refreshAll mem is, k) =
      .inl (t.refreshAll mem (k :: is), j) := by
    intro k is hk
    obtain ⟨j, hj, hsucc, hne⟩ := h.succ_mem hk
    have hlt := h.lt_length hthis k (List.mem_cons_of_mem _ hk)
    exact ⟨j, hstay j hj, (updateRound_eq hlt is hsucc).trans (if_neg hne)⟩
  -- The invariant: the loop is at one of the descriptors before `i`.
  refine hy.invariant (P := fun s => ∃ is, ∃ k ∈ before, s = (t.refreshAll mem is, k))
    (Q := fun _ => False) ?_ ?_ ⟨[], this, hstay this h.this_mem, rfl⟩
  · rintro _ s ⟨is, k, hk, rfl⟩ hs
    obtain ⟨j, hj, heq⟩ := hround k is hk
    exact ⟨k :: is, j, hj, (Sum.inl.inj (heq.symm.trans hs)).symm⟩
  · rintro _ b ⟨is, k, hk, rfl⟩ hb
    obtain ⟨j, -, heq⟩ := hround k is hk
    cases heq.symm.trans hb

end Walked

theorem Outcome.sound {o : Option (Except ChainFault DescTable)} (h : Outcome t mem this o)
    (hthis : this < t.descriptors.length) (r : Except ChainFault DescTable) :
    (o = some r → Yields (updateRound mem this) (t, this) r) ∧
      (o = none → ¬ Yields (updateRound mem this) (t, this) r) := by
  cases h with
  | ends hw _ hsucc =>
    refine ⟨?_, nofun⟩
    rintro ⟨⟩
    exact hw.yields hthis (updateRound_eq (hw.here_lt hthis) _ hsucc)
  | returns hw hsucc =>
    refine ⟨?_, nofun⟩
    rintro ⟨⟩
    exact hw.yields hthis ((updateRound_eq (hw.here_lt hthis) _ hsucc).trans (if_pos rfl))
  | @leaves i j before hw hsucc hj =>
    refine ⟨?_, nofun⟩
    rintro ⟨⟩
    -- The access is in the next round, at the start of the update.
    have hne : j ≠ this := by omega
    have hnext := (updateRound_eq (hw.here_lt hthis) before hsucc).trans (if_neg hne)
    have hupdate : (t.refreshAll mem (i :: before)).update mem j = .error .noDescriptor := by
      apply bind_eq_error.mpr
      exact .inl (require_eq_error.mpr ⟨decide_eq_false (by rw [refreshAll_length]; omega), rfl⟩)
    have hfault : updateRound mem this (t.refreshAll mem (i :: before), j) =
        .inr (.error .noDescriptor) := by
      rw [updateRound, hupdate]
    refine ⟨2 + before.length, ?_⟩
    rw [hw.loop_eq hthis, loop_inl hnext, loop_inr hfault]
  | circles hw hi => exact ⟨nofun, fun _ => hw.not_yields hi hthis r⟩

theorem length_le_of_nodup {l : List ℕ} {n : ℕ} (h : l.Nodup) (hlt : ∀ k ∈ l, k < n) :
    l.length ≤ n := by
  have hsub : l ⊆ List.range n := fun k hk => List.mem_range.mpr (hlt k hk)
  simpa using (List.subperm_of_subset h hsub).length_le

/-- A walk goes on until it has met every descriptor or one of them twice. -/
theorem exists_outcome (mem : GuestBytes) (hthis : this < t.descriptors.length) :
    ∃ o, Outcome t mem this o := by
  have hgo : ∀ (n i : ℕ) (before : List ℕ), Walked t mem this i before → (i :: before).Nodup →
      t.descriptors.length ≤ before.length + n → ∃ o, Outcome t mem this o := by
    -- Induction on the number of descriptors not met so far.
    intro n
    induction n with
    | zero =>
      intro i before hw hnodup hlen
      have hle := length_le_of_nodup hnodup (hw.lt_length hthis)
      rw [List.length_cons] at hle
      omega
    | succ n ih =>
      intro i before hw hnodup hlen
      cases hsucc : t.succ mem i with
      | none => exact ⟨_, .ends hw hnodup hsucc⟩
      | some j =>
        by_cases hj : j < t.descriptors.length
        · by_cases hne : j = this
          · exact ⟨_, .returns hw (hne ▸ hsucc)⟩
          · have hw' := hw.next hsucc hj hne
            by_cases hmem : j ∈ i :: before
            · exact ⟨_, .circles hw' hmem⟩
            · exact ih j _ hw' (List.nodup_cons.mpr ⟨hmem, hnodup⟩)
                (by rw [List.length_cons]; omega)
        · exact ⟨_, .leaves hw hsucc (by omega)⟩
  exact hgo _ this [] .start (List.nodup_singleton _) (Nat.le_add_left ..)

theorem outcome_of_yields (hthis : this < t.descriptors.length)
    {r : Except ChainFault DescTable} (h : Yields (updateRound mem this) (t, this) r) :
    Outcome t mem this (some r) := by
  obtain ⟨o, ho⟩ := exists_outcome mem hthis
  cases o with
  | none => exact absurd h ((ho.sound hthis r).2 rfl)
  | some r' =>
    rw [h.unique ((ho.sound hthis r').1 rfl)]
    exact ho

/-- **How `updateChain` ends.**  Whatever the guest wrote in the descriptors, the call returns,
panics or leaves the queue exactly as the walk along the `next` fields does, and it goes round for
ever exactly when the walk meets a descriptor other than the first one twice. -/
theorem updateChain_outcome (hthis : this < t.descriptors.length) :
    (∀ r, (∃ fuel, t.updateChain mem fuel this = some r) ↔ Outcome t mem this (some r)) ∧
      ((∀ fuel, t.updateChain mem fuel this = none) ↔ Outcome t mem this none) := by
  refine ⟨fun r => ⟨outcome_of_yields hthis, fun h => (h.sound hthis r).1 rfl⟩, ?_⟩
  constructor
  · intro hnone
    obtain ⟨o, ho⟩ := exists_outcome mem hthis
    cases o with
    | none => exact ho
    | some r =>
      obtain ⟨fuel, hfuel⟩ := (ho.sound hthis r).1 rfl
      cases (hnone fuel).symm.trans hfuel
  · intro h fuel
    by_contra hsome
    obtain ⟨r, hr⟩ := Option.ne_none_iff_exists'.mp hsome
    exact (h.sound hthis r).2 rfl ⟨fuel, hr⟩

/-- Two descriptors that both lead to the second one, as guest memory has them. -/
def circling : DescTable := ⟨0x1000, .little, [⟨0, 0, 0, 0⟩, ⟨0, 0, 0, 0⟩]⟩

def circlingMem : GuestBytes := fun a => if a ∈ [0x100c, 0x100e, 0x101c, 0x101e] then 1 else 0

theorem updateChain_outcome_circling :
    (fun fuel => circling.updateChain circlingMem fuel 0) = fun _ => none := by
  apply funext ((updateChain_outcome (by decide)).2.mpr _)
  have hfirst : Walked circling circlingMem 0 1 [0] :=
    .next .start (by decide +kernel) (by decide) (by decide)
  have hagain : Walked circling circlingMem 0 1 [1, 0] :=
    .next hfirst (by decide +kernel) (by decide) (by decide)
  exact .circles hagain (by decide)

/-! ## Chains -/

/-- **A finite chain** from a descriptor on, with the ones behind it. -/
def Chain (t : DescTable) : VringDesc → List VringDesc → Prop
  | d, [] => d.next = none
  | d, e :: rest => ∃ i, d.next = some i ∧ t.descriptors[i]? = some e ∧ Chain t e rest

theorem fetched_of_lt (mem : GuestBytes) (hi : i < t.descriptors.length) :
    ∃ d, t.fetched mem i = some d ∧ t.succ mem i = d.next := by
  have hlt : i < (t.refresh mem i).descriptors.length := by rwa [refresh_length]
  refine ⟨_, List.getElem?_eq_getElem hlt, ?_⟩
  rw [succ, next, List.getElem?_eq_getElem hlt]
  rfl

/-- What was met on the way, up to date, is a chain. -/
theorem Walked.chain (h : Walked t mem this i before) (hthis : this < t.descriptors.length)
    {t' : DescTable} (hup : ∀ k ∈ i :: before, t'.descriptors[k]? = t.fetched mem k)
    {d : VringDesc} {rest : List VringDesc} (hd : t.fetched mem i = some d)
    (hc : Chain t' d rest) : ∃ first rest', t.fetched mem this = some first ∧
      Chain t' first rest' ∧ rest'.length = rest.length + before.length := by
  induction h generalizing d rest with
  | start => exact ⟨d, rest, hd, hc, rfl⟩
  | @next i j before hw hsucc _ _ ih =>
    obtain ⟨e, he, hnext⟩ := fetched_of_lt mem (hw.here_lt hthis)
    have hc' : Chain t' e (d :: rest) :=
      ⟨j, hnext.symm.trans hsucc, (hup j List.mem_cons_self).trans hd, hc⟩
    obtain ⟨first, rest', hfirst, hchain, hlen⟩ :=
      ih (fun k hk => hup k (List.mem_cons_of_mem _ hk)) he hc'
    refine ⟨first, rest', hfirst, hchain, ?_⟩
    rw [hlen, List.length_cons, List.length_cons]
    omega

/-- **A chain that `updateChain` returned is finite.** -/
theorem chain_of_updateChain (hthis : this < t.descriptors.length) {t' : DescTable}
    (h : ∃ fuel, t.updateChain mem fuel this = some (.ok t')) :
    ∃ d rest, t'.descriptors[this]? = some d ∧ Chain t' d rest ∧
      rest.length < t'.descriptors.length := by
  cases outcome_of_yields hthis h with
  | @ends i before hw hnodup hsucc =>
    obtain ⟨d, hd, hnext⟩ := fetched_of_lt mem (hw.here_lt hthis)
    have hlast : Chain (t.refreshAll mem (i :: before)) d [] := hnext.symm.trans hsucc
    obtain ⟨first, rest, hfirst, hc, hlen⟩ :=
      hw.chain hthis (fun k hk => refreshAll_getElem? hk) hd hlast
    refine ⟨first, rest, (refreshAll_getElem? hw.this_mem).trans hfirst, hc, ?_⟩
    have hle := length_le_of_nodup hnodup (hw.lt_length hthis)
    rw [List.length_cons] at hle
    rw [hlen, refreshAll_length, List.length_nil]
    omega

end DescTable

end Gem5.Virtio
