/-
# Conservation of physical registers

Every physical register of an active class is at all times in exactly one place:
on the free list, in the current map of one thread at one index, or saved as the
previous register of one history entry that changed the map.  The invariant
counts with multiplicity (`Conserved`): free list, maps and saved registers add up
to all registers of the class.

Only one of the two vector interfaces is active at a time.  The registers of the
other one are in none of the places until a squash switches the mode, which the
free-list checks of `switchFreeList` allow only when a single thread runs and
saves no vector register.
-/
import Gem5.Counting
import Gem5.InitialMap

namespace Gem5.O3

open Runs Counting

variable {n : ℕ} {p : RegFileParams}

/-! ## The invariant -/

/-- The register an entry saves for class `c`. -/
def savedReg (c : RegClass) (e : RenameHistory) : Option PhysReg :=
  if e.archReg.regClass = c ∧ e.changed then some e.prevPhysReg else none

/-- The registers saved in a history buffer. -/
def saved (c : RegClass) (hist : List RenameHistory) : Multiset PhysReg :=
  (hist.filterMap (savedReg c) : List PhysReg)

/-- The registers a map mentions. -/
def mapped (p : RegFileParams) (c : RegClass) (m : ArchMap) : Multiset PhysReg :=
  valuesBelow (p.numArchRegs c) (m c)

/-- Everything that mentions a register of class `c`. -/
def occurrences (p : RegFileParams) (fl : FreeList) (maps : Fin n → ArchMap)
    (hist : Fin n → List RenameHistory) (c : RegClass) : Multiset PhysReg :=
  (fl c : Multiset PhysReg) + ∑ t, mapped p c (maps t) + ∑ t, saved c (hist t)

/-- The history can be undone from `m`: each changing entry finds its new register
in the map when its turn comes. -/
def Undoable (p : RegFileParams) : ArchMap → List RenameHistory → Prop
  | _, [] => True
  | m, e :: rest =>
      (e.changed = true → m e.archReg.regClass (e.archReg.flatIndex p) = some e.newPhysReg) ∧
        Undoable p (undo p m e) rest

/-- **The conservation invariant** of free lists, maps and histories. -/
structure Conserved (p : RegFileParams) (fl : FreeList) (maps : Fin n → ArchMap)
    (hist : Fin n → List RenameHistory) (mode : VecRegRenameMode) : Prop where
  active : ∀ c, Active c mode → occurrences p fl maps hist c = (getRegIds p c : Multiset PhysReg)
  inactive : ∀ c, ¬ Active c mode → fl c = [] ∧ ∀ t, saved c (hist t) = 0
  total : ∀ t c i, Active c mode → i < p.numArchRegs c → (maps t c i).isSome = true
  inRange : ∀ t c i, (maps t c i).isSome = true → i < p.numArchRegs c
  undoable : ∀ t, Undoable p (maps t) (hist t)

/-- The invariant of the register state. -/
structure Inv (p : RegFileParams) (s : CPU n) : Prop where
  conserved : Conserved p s.freeList (fun t => (s.renameMap t).map) s.historyBuffer s.vecMode
  mode : ∀ t, (s.renameMap t).vecMode = s.vecMode

/-! ## Bookkeeping -/

theorem saved_cons (c : RegClass) (e : RenameHistory) (hist : List RenameHistory) :
    saved c (e :: hist) = ((savedReg c e).toList : Multiset PhysReg) + saved c hist := by
  unfold saved
  rw [List.filterMap_cons]
  cases savedReg c e with
  | none => simp
  | some r => simp

theorem saved_append (c : RegClass) (xs ys : List RenameHistory) :
    saved c (xs ++ ys) = saved c xs + saved c ys := by
  unfold saved
  rw [List.filterMap_append, Multiset.coe_add]

variable {c : RegClass} {e : RenameHistory} {maps : Fin n → ArchMap} {mode : VecRegRenameMode}
  {fl : FreeList} {i : ℕ} {r new : PhysReg} {tid : Fin n} {seq : InstSeqNum}
  {rest : List RenameHistory} {s s' : CPU n}

theorem savedReg_of_changed (hc : e.archReg.regClass = c) (h : e.changed = true) :
    savedReg c e = some e.prevPhysReg :=
  if_pos ⟨hc, h⟩

theorem savedReg_of_ne (h : e.archReg.regClass ≠ c ∨ e.changed = false) : savedReg c e = none := by
  refine if_neg fun hand => ?_
  rcases h with h | h
  · exact h hand.1
  · rw [h] at hand
    exact absurd hand.2 (by decide)

/-- A changing entry of a conserved history belongs to an active class. -/
theorem Conserved.active_of_mem {hist : Fin n → List RenameHistory}
    (h : Conserved p fl maps hist mode) {t : Fin n} (he : e ∈ hist t) (hch : e.changed = true) :
    Active e.archReg.regClass mode := by
  by_contra hact
  have hzero := (h.inactive _ hact).2 t
  have hmem : e.prevPhysReg ∈ saved e.archReg.regClass (hist t) := by
    unfold saved
    rw [Multiset.mem_coe, List.mem_filterMap]
    exact ⟨e, he, savedReg_of_changed rfl hch⟩
  rw [hzero] at hmem
  exact absurd hmem (Multiset.notMem_zero _)

theorem mapped_set_self {m : ArchMap} {old : PhysReg} (new : PhysReg) (hi : i < p.numArchRegs c)
    (hold : m c i = some old) :
    mapped p c (m.set c i new) + {old} = mapped p c m + {new} := by
  unfold mapped ArchMap.set
  rw [Function.update_self]
  exact valuesBelow_update new hi hold

theorem mapped_set_of_ne {c' : RegClass} {m : ArchMap} (new : PhysReg) (h : c' ≠ c) :
    mapped p c' (m.set c i new) = mapped p c' m := by
  unfold mapped ArchMap.set
  rw [Function.update_of_ne h]

/-- The registers of a class are distinct and belong to it. -/
theorem count_getRegIds (c : RegClass) (r : PhysReg) :
    (getRegIds p c : Multiset PhysReg).count r =
      if r.regClass = c ∧ r.pos < p.numPhysRegs c then 1 else 0 := by
  have hnodup : (getRegIds p c).Nodup :=
    List.nodup_range.map fun a b hab => (PhysReg.mk.inj hab).2
  rw [Multiset.coe_count, hnodup.count]
  refine if_congr ?_ rfl rfl
  unfold getRegIds
  rw [List.mem_map]
  constructor
  · rintro ⟨k, hk, rfl⟩
    exact ⟨rfl, List.mem_range.mp hk⟩
  · rintro ⟨rfl, hlt⟩
    exact ⟨r.pos, List.mem_range.mpr hlt, rfl⟩

/-- A register mentioned anywhere in an active class belongs to that class. -/
theorem Conserved.regClass_of_mem {hist : Fin n → List RenameHistory}
    (h : Conserved p fl maps hist mode) (hc : Active c mode) (hr : r ∈ occurrences p fl maps hist c)
    :
    r.regClass = c := by
  rw [h.active c hc, ← Multiset.count_pos, count_getRegIds] at hr
  by_contra hne
  rw [if_neg fun hand => hne hand.1] at hr
  exact absurd hr (lt_irrefl 0)

theorem mem_occurrences_of_map {hist : Fin n → List RenameHistory} {t : Fin n}
    (hi : i < p.numArchRegs c) (hr : maps t c i = some r) :
    r ∈ occurrences p fl maps hist c := by
  refine Multiset.mem_add.mpr (.inl (Multiset.mem_add.mpr (.inr ?_)))
  exact Multiset.mem_sum.mpr ⟨t, Finset.mem_univ t, mem_valuesBelow.mpr ⟨i, hi, hr⟩⟩

/-- No register is both free and mapped. -/
theorem Conserved.ne_of_free_of_map {hist : Fin n → List RenameHistory}
    (h : Conserved p fl maps hist mode) (hc : Active c mode) {t : Fin n} {prev : PhysReg}
    (hfree : new ∈ fl c) (hi : i < p.numArchRegs c) (hmap : maps t c i = some prev) :
    new ≠ prev := by
  rintro rfl
  have hcount := congrArg (Multiset.count new) (h.active c hc)
  have hle := count_getRegIds (p := p) c new
  have h1 : 0 < (fl c : Multiset PhysReg).count new := Multiset.count_pos.mpr hfree
  have h2 : 0 < (∑ t, mapped p c (maps t)).count new :=
    Multiset.count_pos.mpr
      (Multiset.mem_sum.mpr ⟨t, Finset.mem_univ t, mem_valuesBelow.mpr ⟨i, hi, hmap⟩⟩)
  unfold occurrences at hcount
  rw [Multiset.count_add, Multiset.count_add, hle] at hcount
  split_ifs at hcount <;> omega

/-- A thread's part of the occurrences, when its map and history change. -/
theorem occurrences_update (fl fl' : FreeList) (maps : Fin n → ArchMap)
    (hist : Fin n → List RenameHistory) (tid : Fin n) (m : ArchMap) (l : List RenameHistory)
    (c : RegClass) (r : PhysReg) :
    (occurrences p fl' (Function.update maps tid m) (Function.update hist tid l) c).count r +
        ((fl c).count r + (mapped p c (maps tid)).count r + (saved c (hist tid)).count r) =
      (occurrences p fl maps hist c).count r +
        ((fl' c).count r + (mapped p c m).count r + (saved c l).count r) := by
  have hmap := congrArg (Multiset.count r) (sum_update (mapped p c) maps tid m)
  have hhist := congrArg (Multiset.count r) (sum_update (saved c) hist tid l)
  simp only [Multiset.count_add] at hmap hhist
  simp only [occurrences, Multiset.count_add, Multiset.coe_count]
  omega

/-! ## One thread changes -/

/-- The invariant after a change of one thread's map and history and of the free
lists, when the three still mention each register equally often together. -/
theorem Conserved.update {hist : Fin n → List RenameHistory} (h : Conserved p fl maps hist mode)
    {fl' : FreeList} {m : ArchMap} {l : List RenameHistory} (hbal : ∀ c r, Active c mode →
      (fl' c).count r + (mapped p c m).count r + (saved c l).count r =
        (fl c).count r + (mapped p c (maps tid)).count r + (saved c (hist tid)).count r)
    (hinact : ∀ c, ¬ Active c mode → fl' c = [] ∧ saved c l = 0)
    (htotal : ∀ c i, Active c mode → i < p.numArchRegs c → (m c i).isSome = true)
    (hrange : ∀ c i, (m c i).isSome = true → i < p.numArchRegs c) (hundo : Undoable p m l) :
    Conserved p fl' (Function.update maps tid m) (Function.update hist tid l) mode where
  active c hc := by
    rw [← h.active c hc]
    ext r
    have hocc := occurrences_update (p := p) fl fl' maps hist tid m l c r
    have hb := hbal c r hc
    omega
  inactive c hc := by
    refine ⟨(hinact c hc).1, fun t => ?_⟩
    by_cases ht : t = tid
    · rw [ht, Function.update_self]
      exact (hinact c hc).2
    · rw [Function.update_of_ne ht]
      exact (h.inactive c hc).2 t
  total t c i hc hi := by
    by_cases ht : t = tid
    · rw [ht, Function.update_self]
      exact htotal c i hc hi
    · rw [Function.update_of_ne ht]
      exact h.total t c i hc hi
  inRange t c i hi := by
    by_cases ht : t = tid
    · rw [ht, Function.update_self] at hi
      exact hrange c i hi
    · rw [Function.update_of_ne ht] at hi
      exact h.inRange t c i hi
  undoable t := by
    by_cases ht : t = tid
    · rw [ht, Function.update_self, Function.update_self]
      exact hundo
    · rw [Function.update_of_ne ht, Function.update_of_ne ht]
      exact h.undoable t

/-- A written entry is defined, the others are as before. -/
theorem isSome_set {m : ArchMap} {c' : RegClass} {i' : ℕ} (h : (m c' i').isSome = true) :
    (m.set c i r c' i').isSome = true := by
  rw [ArchMap.set_apply]
  split_ifs
  · rfl
  · exact h

theorem lt_of_isSome_set {m : ArchMap} {c' : RegClass} {i' : ℕ}
    (hrange : ∀ c i, (m c i).isSome = true → i < p.numArchRegs c) (hi : i < p.numArchRegs c)
    (h : (m.set c i r c' i').isSome = true) : i' < p.numArchRegs c' := by
  rw [ArchMap.set_apply] at h
  split_ifs at h with heq
  · rw [heq.1, heq.2]
    exact hi
  · exact hrange c' i' h

/-! ## Renaming -/

/-- Renaming a register conserves: the allocated register moves from the free list
to the map and the previous one from the map to the history. -/
theorem Conserved.renaming {fl' : FreeList} {hist : Fin n → List RenameHistory}
    (h : Conserved p fl maps hist mode) {a : RegId} {prev : PhysReg} {m : ArchMap}
    (hmode : a.regClass ≠ .MiscRegClass → vecModeOk a.regClass mode = true)
    (hren : Renaming a (a.flatIndex p) (maps tid) fl new prev m fl') :
    Conserved p fl' (Function.update maps tid m)
      (Function.update hist tid (⟨seq, a, new, prev⟩ :: hist tid)) mode := by
  cases hren with
  | kept hr =>
    have hch : (⟨seq, a, new, new⟩ : RenameHistory).changed = false := by
      simp [RenameHistory.changed]
    have hsaved : ∀ c, saved c (⟨seq, a, new, new⟩ :: hist tid) = saved c (hist tid) := fun c => by
      rw [saved_cons, savedReg_of_ne (.inr hch)]
      simp
    refine h.update (fun c r _ => by rw [hsaved]) (fun c hc => ?_) (h.total tid) (h.inRange tid) ?_
    · rw [hsaved]
      exact ⟨(h.inactive c hc).1, (h.inactive c hc).2 tid⟩
    · refine ⟨fun hc => absurd hc (by rw [hch]; decide), ?_⟩
      unfold undo
      rw [hch, if_neg (by decide)]
      exact h.undoable tid
  | allocated _ rest hc hm hfl =>
    have hact : Active a.regClass mode := ⟨hc, hmode hc⟩
    have hi : a.flatIndex p < p.numArchRegs a.regClass := h.inRange tid _ _ (by rw [hm]; rfl)
    have hne : new ≠ prev :=
      h.ne_of_free_of_map hact (by rw [hfl]; exact List.mem_cons_self) hi hm
    have hch : (⟨seq, a, new, prev⟩ : RenameHistory).changed = true := by
      simpa [RenameHistory.changed] using hne
    refine h.update (fun c r _ => ?_) (fun c hcn => ?_) (fun c i hc' hi' => isSome_set
      (h.total tid c i hc' hi')) (fun c i => lt_of_isSome_set (h.inRange tid) hi) ?_
    · by_cases hcc : c = a.regClass
      · subst hcc
        have hmap := congrArg (Multiset.count r) (mapped_set_self new hi hm)
        rw [Multiset.count_add, Multiset.count_add] at hmap
        rw [Function.update_self, saved_cons, savedReg_of_changed rfl hch, hfl,
          List.count_cons, Multiset.count_add]
        simp only [Option.toList_some, Multiset.coe_singleton, Multiset.count_singleton,
          beq_iff_eq] at hmap ⊢
        have hcomm : (if new = r then 1 else 0) = if r = new then 1 else 0 := by
          simp only [eq_comm]
        omega
      · rw [Function.update_of_ne hcc, mapped_set_of_ne new hcc, saved_cons,
          savedReg_of_ne (.inl fun heq => hcc heq.symm)]
        simp
    · have hcc : c ≠ a.regClass := fun heq => hcn (heq ▸ hact)
      rw [Function.update_of_ne hcc, saved_cons,
        savedReg_of_ne (.inl fun heq => hcc heq.symm)]
      refine ⟨(h.inactive c hcn).1, ?_⟩
      simpa using (h.inactive c hcn).2 tid
    · refine ⟨fun _ => ArchMap.set_self _ _ _ _, ?_⟩
      unfold undo
      rw [if_pos hch, ArchMap.set_set, ArchMap.set_eq_self hm]
      exact h.undoable tid

/-! ## Squash and commit -/

/-- The free list after a register was given back. -/
theorem count_addReg (fl : FreeList) (c : RegClass) (r r' : PhysReg) :
    (Function.update fl r.regClass (fl r.regClass ++ [r]) c).count r' =
      (fl c).count r' + if r.regClass = c ∧ r' = r then 1 else 0 := by
  by_cases hc : c = r.regClass
  · subst hc
    rw [Function.update_self, List.count_append, List.count_singleton]
    simp only [beq_iff_eq, true_and]
    congr 1
    simp only [eq_comm]
  · rw [Function.update_of_ne hc, if_neg fun hand => hc hand.1.symm]
    rfl

/-- Undoing the youngest entry conserves: its new register moves from the map to
the free list and the saved one back into the map. -/
theorem Conserved.undoEntry {hist : Fin n → List RenameHistory} (h : Conserved p fl maps hist mode)
    (hhist : hist tid = e :: rest) :
    Conserved p
      (if e.changed then Function.update fl e.newPhysReg.regClass
        (fl e.newPhysReg.regClass ++ [e.newPhysReg]) else fl)
      (Function.update maps tid (undo p (maps tid) e)) (Function.update hist tid rest) mode := by
  have hundo := h.undoable tid
  rw [hhist] at hundo
  have hsaved : ∀ c, saved c (hist tid) =
      ((savedReg c e).toList : Multiset PhysReg) + saved c rest := fun c => by
    rw [hhist, saved_cons]
  have hinact : ∀ c, ¬ Active c mode → saved c rest = 0 := fun c hc => by
    have hz := (h.inactive c hc).2 tid
    rw [hsaved] at hz
    exact (add_eq_zero.mp hz).2
  by_cases hch : e.changed = true
  · have hact := h.active_of_mem (by rw [hhist]; exact List.mem_cons_self) hch
    have hnew := hundo.1 hch
    have hi := h.inRange tid _ _ (by rw [hnew]; rfl)
    have hcls : e.newPhysReg.regClass = e.archReg.regClass :=
      h.regClass_of_mem hact (mem_occurrences_of_map hi hnew)
    have hset : undo p (maps tid) e =
        (maps tid).set e.archReg.regClass (e.archReg.flatIndex p) e.prevPhysReg := if_pos hch
    rw [if_pos hch, hset]
    refine h.update (fun c r _ => ?_) (fun c hc => ?_) (fun c i hc hi => isSome_set
      (h.total tid c i hc hi)) (fun c i => lt_of_isSome_set (h.inRange tid) hi) (hset ▸ hundo.2)
    · rw [count_addReg, hsaved, Multiset.count_add]
      by_cases hcc : c = e.archReg.regClass
      · subst hcc
        have hmap := congrArg (Multiset.count r) (mapped_set_self e.prevPhysReg hi hnew)
        rw [Multiset.count_add, Multiset.count_add] at hmap
        rw [savedReg_of_changed rfl hch]
        simp only [hcls, true_and, Option.toList_some, Multiset.coe_singleton,
          Multiset.count_singleton] at hmap ⊢
        omega
      · rw [mapped_set_of_ne _ hcc, savedReg_of_ne (.inl fun heq => hcc heq.symm),
          if_neg fun hand => hcc (hand.1.symm.trans hcls)]
        simp
    · have hcc : c ≠ e.newPhysReg.regClass := fun heq => hc (heq ▸ hcls ▸ hact)
      rw [Function.update_of_ne hcc]
      exact ⟨(h.inactive c hc).1, hinact c hc⟩
  · have hkeep : undo p (maps tid) e = maps tid := if_neg hch
    rw [if_neg hch, hkeep]
    refine h.update (fun c r _ => ?_) (fun c hc => ⟨(h.inactive c hc).1, hinact c hc⟩)
      (h.total tid) (h.inRange tid) (hkeep ▸ hundo.2)
    rw [hsaved, savedReg_of_ne (.inr (by simpa using hch))]
    simp

/-- A prefix of an undoable history is undoable. -/
theorem Undoable.of_append {m : ArchMap} {xs ys : List RenameHistory}
    (h : Undoable p m (xs ++ ys)) : Undoable p m xs := by
  induction xs generalizing m with
  | nil => trivial
  | cons e xs ih => exact ⟨h.1, ih h.2⟩

/-- Committing the oldest entry conserves: its saved register moves from the
history to the free list. -/
theorem Conserved.commitEntry {hist : Fin n → List RenameHistory}
    (h : Conserved p fl maps hist mode) (hhist : hist tid = rest ++ [e]) :
    Conserved p
      (if e.changed then Function.update fl e.prevPhysReg.regClass
        (fl e.prevPhysReg.regClass ++ [e.prevPhysReg]) else fl)
      maps (Function.update hist tid rest) mode := by
  have hundo : Undoable p (maps tid) rest := (hhist ▸ h.undoable tid).of_append
  have hsaved : ∀ c, saved c (hist tid) =
      saved c rest + ((savedReg c e).toList : Multiset PhysReg) := fun c => by
    rw [hhist, saved_append, saved_cons]
    simp [saved]
  have hinact : ∀ c, ¬ Active c mode → saved c rest = 0 := fun c hc => by
    have hz := (h.inactive c hc).2 tid
    rw [hsaved] at hz
    exact (add_eq_zero.mp hz).1
  rw [← Function.update_eq_self tid maps]
  by_cases hch : e.changed = true
  · have hact := h.active_of_mem (t := tid) (by rw [hhist]; simp) hch
    have hcls : e.prevPhysReg.regClass = e.archReg.regClass := by
      refine h.regClass_of_mem hact (Multiset.mem_add.mpr (.inr ?_))
      refine Multiset.mem_sum.mpr ⟨tid, Finset.mem_univ tid, ?_⟩
      rw [hsaved, savedReg_of_changed rfl hch]
      simp
    rw [if_pos hch]
    refine h.update (fun c r _ => ?_) (fun c hc => ?_) (h.total tid) (h.inRange tid) hundo
    · rw [count_addReg, hsaved, Multiset.count_add]
      by_cases hcc : c = e.archReg.regClass
      · subst hcc
        rw [savedReg_of_changed rfl hch]
        simp only [hcls, true_and, Option.toList_some, Multiset.coe_singleton,
          Multiset.count_singleton]
        omega
      · rw [savedReg_of_ne (.inl fun heq => hcc heq.symm),
          if_neg fun hand => hcc (hand.1.symm.trans hcls)]
        simp
    · have hcc : c ≠ e.prevPhysReg.regClass := fun heq => hc (heq ▸ hcls ▸ hact)
      rw [Function.update_of_ne hcc]
      exact ⟨(h.inactive c hc).1, hinact c hc⟩
  · rw [if_neg hch]
    refine h.update (fun c r _ => ?_) (fun c hc => ⟨(h.inactive c hc).1, hinact c hc⟩)
      (h.total tid) (h.inRange tid) hundo
    rw [hsaved, savedReg_of_ne (.inr (by simpa using hch))]
    simp

/-- The maps of all threads, when one of them changes. -/
theorem map_update (f : Fin n → UnifiedRenameMap) (tid : Fin n) (m : UnifiedRenameMap) :
    (fun t => (Function.update f tid m t).map) =
      Function.update (fun t => (f t).map) tid m.map := by
  funext t
  by_cases ht : t = tid
  · rw [ht, Function.update_self, Function.update_self]
  · rw [Function.update_of_ne ht, Function.update_of_ne ht]

theorem vecMode_update {f : Fin n → UnifiedRenameMap} {m : UnifiedRenameMap}
    (hf : ∀ t, (f t).vecMode = mode) (hm : m.vecMode = mode) (t : Fin n) :
    (Function.update f tid m t).vecMode = mode := by
  by_cases ht : t = tid
  · rw [ht, Function.update_self]
    exact hm
  · rw [Function.update_of_ne ht]
    exact hf t

theorem inv_renameDestReg {a : RegId} (h : Inv p s)
    (hs : renameDestReg p s tid seq a = .ok (s', new)) :
    Inv p s' := by
  obtain ⟨prev, map, fl, pins, sb, hren, -, hmode, -, -, rfl⟩ := renameDestReg_ok hs
  refine ⟨?_, vecMode_update h.mode (h.mode tid)⟩
  show Conserved p fl (fun t => (Function.update s.renameMap tid _ t).map) _ _
  rw [map_update]
  exact h.conserved.renaming (fun hc => h.mode tid ▸ hmode hc) hren

/-- The squash loop conserves, with the rest of the list as the history. -/
theorem inv_squashLoop {hist : List RenameHistory}
    (h : Conserved p s.freeList (fun t => (s.renameMap t).map)
      (Function.update s.historyBuffer tid hist) s.vecMode)
    (hmode : ∀ t, (s.renameMap t).vecMode = s.vecMode) (hs : squashLoop p tid seq s hist = .ok s') :
    Inv p s' := by
  induction hist generalizing s with
  | nil =>
    cases hs
    exact ⟨h, hmode⟩
  | cons e rest ih =>
    rw [squashLoop] at hs
    split_ifs at hs with hgt
    · obtain ⟨t, ht, hs⟩ := bind_eq_ok.mp hs
      have hmem : e ∈ Function.update s.historyBuffer tid (e :: rest) tid := by
        rw [Function.update_self]
        exact List.mem_cons_self
      obtain ⟨-, rfl⟩ := undoEntry_ok (fun hch => (h.active_of_mem hmem hch).1) ht
      have hnext := h.undoEntry (Function.update_self tid (e :: rest) s.historyBuffer)
      rw [Function.update_idem] at hnext
      refine ih ?_ (vecMode_update hmode (by exact hmode tid)) hs
      show Conserved p _ (fun t => (Function.update s.renameMap tid _ t).map) _ _
      rw [map_update]
      exact hnext
    · cases hs
      exact ⟨h, hmode⟩

/-- The commit loop conserves; it walks the reversed history. -/
theorem Conserved.commitLoop {fl' : FreeList} {hist : Fin n → List RenameHistory}
    {l : List RenameHistory} (h : Conserved p fl maps (Function.update hist tid l.reverse) mode)
    (hs : O3.commitLoop seq fl l = .ok (fl', rest)) :
    Conserved p fl' maps (Function.update hist tid rest.reverse) mode := by
  induction l generalizing fl with
  | nil =>
    cases hs
    exact h
  | cons e l ih =>
    have hlast : Function.update hist tid (e :: l).reverse tid = l.reverse ++ [e] := by
      rw [Function.update_self, List.reverse_cons]
    have hnext := h.commitEntry hlast
    rw [Function.update_idem] at hnext
    rw [O3.commitLoop] at hs
    split_ifs at hs with hle hch
    · obtain ⟨fl1, hfl1, hs⟩ := bind_eq_ok.mp hs
      rw [if_pos hch, ← (addReg_ok hfl1).2] at hnext
      exact ih hnext hs
    · rw [if_neg hch] at hnext
      exact ih hnext hs
    · cases hs
      exact h

theorem inv_removeFromHistory (h : Inv p s) (hs : removeFromHistory s seq tid = .ok s') :
    Inv p s' := by
  obtain ⟨fl, rest, hloop, rfl⟩ := removeFromHistory_ok hs
  refine ⟨Conserved.commitLoop ?_ hloop, h.mode⟩
  rw [List.reverse_reverse, Function.update_eq_self]
  exact h.conserved

/-! ## Switching the vector interface -/

/-- An undoable history stays undoable when the map changes only in classes that
no changing entry touches. -/
theorem Undoable.congr {m m' : ArchMap} {hist : List RenameHistory} (h : Undoable p m hist)
    (hagree : ∀ e ∈ hist, e.changed = true → m' e.archReg.regClass = m e.archReg.regClass) :
    Undoable p m' hist := by
  induction hist generalizing m m' with
  | nil => trivial
  | cons e rest ih =>
    refine ⟨fun hch => ?_, ih h.2 fun e' he' hch' => ?_⟩
    · rw [hagree e List.mem_cons_self hch]
      exact h.1 hch
    · have hrest := hagree e' (List.mem_cons_of_mem e he') hch'
      unfold undo
      split_ifs with hch
      · have hhead := hagree e List.mem_cons_self hch
        funext i
        rw [ArchMap.set_apply, ArchMap.set_apply, hrest]
      · exact hrest

/-- The sizes of free list, maps and saved registers add up. -/
theorem Conserved.card {hist : Fin n → List RenameHistory} (h : Conserved p fl maps hist mode)
    (hc : Active c mode) :
    (fl c).length + n * p.numArchRegs c + ∑ t, (saved c (hist t)).card = p.numPhysRegs c := by
  have hcard := congrArg Multiset.card (h.active c hc)
  have hmaps : ∀ t, (mapped p c (maps t)).card = p.numArchRegs c := fun t =>
    card_valuesBelow fun i hi => h.total t c i hc hi
  unfold occurrences at hcard
  rw [Multiset.card_add, Multiset.card_add, Multiset.card_sum, Multiset.card_sum,
    Finset.sum_congr rfl fun t _ => hmaps t, Finset.sum_const, Finset.card_univ,
    Fintype.card_fin, Multiset.coe_card, Multiset.coe_card] at hcard
  simpa [getRegIds] using hcard

/-- The check of `switchFreeList` passes only for a single thread that saves no
register of the class. -/
theorem Conserved.single {hist : Fin n → List RenameHistory} (h : Conserved p fl maps hist mode)
    (hc : Active c mode) (tid : Fin n) (hpos : 0 < p.numArchRegs c)
    (hlen : (fl c).length = p.numPhysRegs c - p.numArchRegs c) :
    n = 1 ∧ ∀ t, saved c (hist t) = 0 := by
  have hcard := h.card hc
  have hn : 0 < n := tid.pos
  have hle : p.numArchRegs c ≤ n * p.numArchRegs c := Nat.le_mul_of_pos_left _ hn
  have hone : n * p.numArchRegs c = p.numArchRegs c := by omega
  have hn1 : n = 1 := by
    have : n * p.numArchRegs c = 1 * p.numArchRegs c := by rw [hone, one_mul]
    exact Nat.eq_of_mul_eq_mul_right hpos this
  have hsum : ∑ t, (saved c (hist t)).card = 0 := by omega
  refine ⟨hn1, fun t => ?_⟩
  exact Multiset.card_eq_zero.mp (Finset.sum_eq_zero_iff.mp hsum t (Finset.mem_univ t))

/-- The occurrences of a class in a core with one thread. -/
theorem occurrences_single (fl : FreeList) (m : ArchMap) (l : List RenameHistory) (c : RegClass) :
    occurrences p fl (fun _ : Fin 1 => m) (fun _ => l) c =
      (fl c : Multiset PhysReg) + mapped p c m + saved c l := by
  unfold occurrences
  rw [Fintype.sum_unique, Fintype.sum_unique]

/-- The registers of a class as the values of a total map. -/
theorem getRegIds_eq_valuesBelow (c : RegClass) :
    (getRegIds p c : Multiset PhysReg) =
      valuesBelow (p.numPhysRegs c) fun i => some ⟨c, i⟩ := by
  rw [valuesBelow_some]
  rfl

/-- The elements of the file are the elements of its vectors. -/
theorem getRegIds_vecElem :
    (getRegIds p .VecElemClass : Multiset PhysReg) =
      (getRegIds p .VecRegClass : Multiset PhysReg).bind
        fun r => (getRegElemIds p r : Multiset PhysReg) := by
  have hmul := valuesBelow_mul (p.numPhysRegs .VecRegClass) _ p.elems_pos
    (fun i => some (PhysReg.mk .VecRegClass i))
    fun r e => PhysReg.mk .VecElemClass (r.pos * p.NumVecElemPerVecReg + e)
  rw [getRegIds_eq_valuesBelow, getRegIds_eq_valuesBelow]
  refine Eq.trans (valuesBelow_congr fun i _ => ?_) hmul
  rw [Option.map_some, Nat.div_add_mod']

/-- The split map mentions the elements of the vectors the map mentioned. -/
theorem mapped_split {m m' : ArchMap}
    (hm' : ∀ i < p.numArchRegs .VecElemClass, m' .VecElemClass i = splitEntry p m i) :
    mapped p .VecElemClass m' =
      (mapped p .VecRegClass m).bind fun r => (getRegElemIds p r : Multiset PhysReg) := by
  unfold mapped
  rw [valuesBelow_congr hm', p.vecElems_eq]
  exact valuesBelow_mul _ _ p.elems_pos (m .VecRegClass)
    fun r e => PhysReg.mk .VecElemClass (r.pos * p.NumVecElemPerVecReg + e)

/-- A family over a single thread is constant. -/
theorem eq_const {α : Type*} (f : Fin 1 → α) (t : Fin 1) : f = fun _ => f t :=
  funext fun _ => congrArg f (Subsingleton.elim _ _)

/-- A class that is neither vector interface is active in both modes or in none. -/
theorem active_iff_of_ne (hv : c ≠ .VecRegClass) (he : c ≠ .VecElemClass)
    (mode mode' : VecRegRenameMode) : Active c mode ↔ Active c mode' := by
  cases c <;> simp_all [Active, vecModeOk]

/-- Splitting the vectors conserves the elements. -/
theorem Conserved.toElem {hist : Fin n → List RenameHistory} (h : Conserved p fl maps hist .Full)
    (tid : Fin n) (hlen : (fl .VecRegClass).length = p.numPhysVecRegs - p.numArchRegs .VecRegClass)
    :
    Conserved p
      (Function.update (Function.update fl .VecElemClass
        ((fl .VecRegClass).flatMap (getRegElemIds p))) .VecRegClass [])
      (Function.update maps tid (splitMap p (maps tid))) hist .Elem := by
  have hvec : Active .VecRegClass .Full := by decide
  obtain ⟨hn, hsaved⟩ := h.single hvec tid p.vecs_pos hlen
  subst hn
  have hmaps : Function.update maps tid (splitMap p (maps tid)) =
      fun _ => splitMap p (maps tid) := by
    rw [eq_const (Function.update _ _ _) tid, Function.update_self]
  have hother : ∀ c, c ≠ .VecElemClass → splitMap p (maps tid) c = maps tid c := fun c hc =>
    Function.update_of_ne hc _ _
  have helem : ∀ i < p.numArchRegs .VecElemClass,
      splitMap p (maps tid) .VecElemClass i = splitEntry p (maps tid) i := fun i hi => by
    unfold splitMap
    rw [Function.update_self, if_pos hi]
  rw [hmaps, eq_const hist tid]
  refine ⟨fun c hc => ?_, fun c hc => ?_, fun t c i hc hi => ?_, fun t c i hi => ?_, fun t => ?_⟩
  · rw [occurrences_single]
    by_cases he : c = .VecElemClass
    · subst he
      have hall := h.active _ hvec
      rw [eq_const maps tid, eq_const hist tid, occurrences_single, hsaved tid, add_zero] at hall
      have hnone : saved .VecElemClass (hist tid) = 0 := (h.inactive _ (by decide)).2 tid
      rw [Function.update_of_ne (by decide), Function.update_self, hnone, add_zero,
        mapped_split helem, getRegIds_vecElem, ← hall, Multiset.add_bind, ← Multiset.coe_bind]
    · have hv : c ≠ .VecRegClass := fun heq => by rw [heq] at hc; exact absurd hc (by decide)
      have hold := h.active c ((active_iff_of_ne hv he _ _).mp hc)
      rw [eq_const maps tid, eq_const hist tid, occurrences_single] at hold
      rw [Function.update_of_ne hv, Function.update_of_ne he, ← hold]
      unfold mapped
      rw [hother c he]
  · by_cases hv : c = .VecRegClass
    · subst hv
      exact ⟨Function.update_self _ _ _, fun _ => hsaved tid⟩
    · have he : c ≠ .VecElemClass := fun heq => hc (by rw [heq]; decide)
      have hold := h.inactive c fun hact => hc ((active_iff_of_ne hv he _ _).mp hact)
      rw [Function.update_of_ne hv, Function.update_of_ne he]
      exact ⟨hold.1, fun _ => hold.2 tid⟩
  · by_cases he : c = .VecElemClass
    · subst he
      rw [helem i hi]
      unfold splitEntry
      rw [Option.isSome_map]
      refine h.total tid _ _ hvec ((Nat.div_lt_iff_lt_mul p.elems_pos).mpr ?_)
      rw [← p.vecElems_eq]
      exact hi
    · have hv : c ≠ .VecRegClass := fun heq => by rw [heq] at hc; exact absurd hc (by decide)
      rw [hother c he]
      exact h.total tid c i ((active_iff_of_ne hv he _ _).mp hc) hi
  · by_cases he : c = .VecElemClass
    · subst he
      by_contra hlt
      unfold splitMap at hi
      rw [Function.update_self, if_neg hlt] at hi
      exact hlt (h.inRange tid _ i hi)
    · rw [hother c he] at hi
      exact h.inRange tid c i hi
  · refine (h.undoable tid).congr fun e he' hch => hother _ fun heq => ?_
    have hact := h.active_of_mem he' hch
    rw [heq] at hact
    exact absurd hact (by decide)

/-- Stitching the elements conserves the vectors. -/
theorem Conserved.toFull {hist : Fin n → List RenameHistory} (h : Conserved p fl maps hist .Elem)
    (tid : Fin n)
    (hlen : (fl .VecElemClass).length = p.numPhysRegs .VecElemClass - p.numArchRegs .VecElemClass) :
    Conserved p
      (Function.update (Function.update fl .VecRegClass
        ((getRegIds p .VecRegClass).drop (p.numArchRegs .VecRegClass))) .VecElemClass [])
      (Function.update maps tid (stitchMap p (maps tid))) hist .Full := by
  have hact : Active .VecElemClass .Elem := by decide
  have hpos : 0 < p.numArchRegs .VecElemClass := by
    rw [p.vecElems_eq]
    exact Nat.mul_pos p.vecs_pos p.elems_pos
  obtain ⟨hn, hsaved⟩ := h.single hact tid hpos hlen
  subst hn
  have hle : p.numArchRegs .VecRegClass ≤ p.numPhysRegs .VecRegClass := by
    have hcard := h.card hact
    rw [p.vecElems_eq] at hcard
    have hmul : p.numArchRegs .VecRegClass * p.NumVecElemPerVecReg ≤
        p.numPhysVecRegs * p.NumVecElemPerVecReg := by
      change _ = p.numPhysVecRegs * p.NumVecElemPerVecReg at hcard
      omega
    exact Nat.le_of_mul_le_mul_right hmul p.elems_pos
  have hmaps : Function.update maps tid (stitchMap p (maps tid)) =
      fun _ => stitchMap p (maps tid) := by
    rw [eq_const (Function.update _ _ _) tid, Function.update_self]
  have hother : ∀ c, c ≠ .VecRegClass → stitchMap p (maps tid) c = maps tid c := fun c hc =>
    Function.update_of_ne hc _ _
  have hvec : ∀ i < p.numArchRegs .VecRegClass,
      stitchMap p (maps tid) .VecRegClass i = some ⟨.VecRegClass, i⟩ := fun i hi => by
    unfold stitchMap
    rw [Function.update_self, if_pos hi]
  rw [hmaps, eq_const hist tid]
  refine ⟨fun c hc => ?_, fun c hc => ?_, fun t c i hc hi => ?_, fun t c i hi => ?_, fun t => ?_⟩
  · rw [occurrences_single]
    by_cases hv : c = .VecRegClass
    · subst hv
      have hnone : saved .VecRegClass (hist tid) = 0 := (h.inactive _ (by decide)).2 tid
      have hmapped : mapped p .VecRegClass (stitchMap p (maps tid)) =
          ((getRegIds p .VecRegClass).take (p.numArchRegs .VecRegClass) : List PhysReg) := by
        unfold mapped getRegIds
        rw [valuesBelow_congr hvec, valuesBelow_some, ← List.map_take, List.take_range,
          Nat.min_eq_left hle]
      rw [Function.update_of_ne (by decide), Function.update_self, hnone, add_zero, hmapped,
        add_comm, Multiset.coe_add, List.take_append_drop]
    · have he : c ≠ .VecElemClass := fun heq => by rw [heq] at hc; exact absurd hc (by decide)
      have hold := h.active c ((active_iff_of_ne hv he _ _).mp hc)
      rw [eq_const maps tid, eq_const hist tid, occurrences_single] at hold
      rw [Function.update_of_ne he, Function.update_of_ne hv, ← hold]
      unfold mapped
      rw [hother c hv]
  · by_cases he : c = .VecElemClass
    · subst he
      exact ⟨Function.update_self _ _ _, fun _ => hsaved tid⟩
    · have hv : c ≠ .VecRegClass := fun heq => hc (by rw [heq]; decide)
      have hold := h.inactive c fun ha => hc ((active_iff_of_ne hv he _ _).mp ha)
      rw [Function.update_of_ne he, Function.update_of_ne hv]
      exact ⟨hold.1, fun _ => hold.2 tid⟩
  · by_cases hv : c = .VecRegClass
    · subst hv
      rw [hvec i hi]
      rfl
    · have he : c ≠ .VecElemClass := fun heq => by rw [heq] at hc; exact absurd hc (by decide)
      rw [hother c hv]
      exact h.total tid c i ((active_iff_of_ne hv he _ _).mp hc) hi
  · by_cases hv : c = .VecRegClass
    · subst hv
      by_contra hlt
      unfold stitchMap at hi
      rw [Function.update_self, if_neg hlt] at hi
      exact hlt (h.inRange tid _ i hi)
    · rw [hother c hv] at hi
      exact h.inRange tid c i hi
  · refine (h.undoable tid).congr fun e he' hch => hother _ fun heq => ?_
    have ha := h.active_of_mem he' hch
    rw [heq] at ha
    exact absurd ha (by decide)

theorem inv_switchRenameMode (h : Inv p s) (hs : switchRenameMode p s tid mode = .ok s') :
    Inv p s' := by
  by_cases hne : mode = s.vecMode
  · rw [hne, switchRenameMode_same] at hs
    cases hs
    exact h
  · obtain ⟨map, commitMap, fl, rf, rf', sb, hmap, -, hfl, -, rfl⟩ := switchRenameMode_ok hne hs
    have hcons := h.conserved
    cases mode with
    | Elem =>
      have hfull : s.vecMode = .Full := by
        cases hm : s.vecMode with
        | Full => rfl
        | Elem => exact absurd hm.symm hne
      obtain rfl := switchMode_elem_ok ((h.mode tid).trans hfull) hmap
      obtain ⟨hlen, rfl⟩ := switchFreeList_elem_ok rfl hfl
      rw [hfull] at hcons
      have hn := (hcons.single (by decide) tid p.vecs_pos hlen).1
      subst hn
      refine ⟨?_, fun t => ?_⟩
      · show Conserved p _ (fun t => (Function.update s.renameMap tid _ t).map) _ _
        rw [map_update]
        exact hcons.toElem tid hlen
      · show (Function.update s.renameMap tid _ t).vecMode = _
        rw [Subsingleton.elim t tid, Function.update_self]
    | Full =>
      have helem : s.vecMode = .Elem := by
        cases hm : s.vecMode with
        | Elem => rfl
        | Full => exact absurd hm.symm hne
      obtain rfl := switchMode_full_ok ((h.mode tid).trans helem) hmap
      obtain ⟨hlen, rfl⟩ := switchFreeList_full_ok rfl hfl
      rw [helem] at hcons
      have hpos : 0 < p.numArchRegs .VecElemClass := by
        rw [p.vecElems_eq]
        exact Nat.mul_pos p.vecs_pos p.elems_pos
      have hn := (hcons.single (by decide) tid hpos hlen).1
      subst hn
      refine ⟨?_, fun t => ?_⟩
      · show Conserved p _ (fun t => (Function.update s.renameMap tid _ t).map) _ _
        rw [map_update]
        exact hcons.toFull tid hlen
      · show (Function.update s.renameMap tid _ t).vecMode = _
        rw [Subsingleton.elim t tid, Function.update_self]

/-! ## Every action -/

/-- **Every action conserves the registers.** -/
theorem inv_step {a : Action n} (h : Inv p s) (hs : step p s a = .ok s') :
    Inv p s' := by
  cases a with
  | renameDestRegs tid inst flat =>
    obtain ⟨t, dests, hloop, rfl⟩ := renameDestRegs_ok hs
    have ht : Inv p t := renameLoop_invariant (fun _ _ _ _ => inv_renameDestReg) h hloop
    exact ⟨ht.conserved, ht.mode⟩
  | doSquash seq tid mode =>
    obtain ⟨t, ht, hs⟩ := bind_eq_ok.mp hs
    cases hs
    obtain ⟨u, hu, ht⟩ := bind_eq_ok.mp ht
    have hloop : Inv p u := by
      refine inv_squashLoop ?_ h.mode hu
      rw [Function.update_eq_self]
      exact h.conserved
    have hinv := inv_switchRenameMode hloop ht
    exact ⟨hinv.conserved, hinv.mode⟩
  | removeFromHistory seq tid => exact inv_removeFromHistory h hs
  | commitHead tid =>
    rcases commitHead_ok hs with ⟨-, rfl⟩ | ⟨_, _, _, -, -, rfl⟩
    · exact h
    · exact ⟨h.conserved, h.mode⟩
  | setReg r =>
    obtain ⟨sb, -, hs⟩ := bind_eq_ok.mp hs
    cases hs
    exact ⟨h.conserved, h.mode⟩
  | setPins r pins =>
    cases hs
    exact ⟨h.conserved, h.mode⟩

/-- The constructor establishes the invariant. -/
theorem inv_init (hcfg : configOk p n = true) : Inv p (bound p n n) := by
  have hmap : ∀ t : Fin n, ((bound p n n).renameMap t).map = initMap p t := fun t =>
    if_pos t.isLt
  have hmaps : (fun t : Fin n => ((bound p n n).renameMap t).map) = fun t : Fin n => initMap p t :=
    funext hmap
  refine ⟨?_, fun t => rfl⟩
  rw [hmaps]
  refine ⟨fun c hc => ?_, fun c hc => ⟨?_, fun t => rfl⟩, fun t c i hc hi => ?_,
    fun t c i hi => ?_, fun t => trivial⟩
  · have hle := numPhysRegs_of_configOk hcfg hc.1
    have hmapped : ∀ t : Fin n, mapped p c (initMap p t) =
        valuesBelow (p.numArchRegs c) fun i => some ⟨c, t * p.numArchRegs c + i⟩ := fun t =>
      valuesBelow_congr fun i hi => if_pos ⟨hc, hi⟩
    have hsum : ∑ t : Fin n, mapped p c (initMap p t) =
        ((getRegIds p c).take (n * p.numArchRegs c) : List PhysReg) := by
      rw [Finset.sum_congr rfl fun t _ => hmapped t,
        sum_valuesBelow n (p.numArchRegs c) fun i => some (PhysReg.mk c i), valuesBelow_some, getRegIds,
        ← List.map_take, List.take_range, Nat.min_eq_left hle]
    have hsaved : ∑ t : Fin n, saved c ((bound p n n).historyBuffer t) = 0 :=
      Finset.sum_eq_zero fun t _ => rfl
    unfold occurrences
    rw [hsum, hsaved, add_zero]
    show (((initFreeList p c).drop _ : List PhysReg) : Multiset PhysReg) + _ = _
    rw [initFreeList_of_active hc, add_comm, Multiset.coe_add, List.take_append_drop]
  · show (initFreeList p c).drop _ = []
    rw [initFreeList_of_not_active hc, List.drop_nil]
  · show (initMap p t c i).isSome = true
    unfold initMap
    rw [if_pos ⟨hc, hi⟩]
    rfl
  · by_contra hlt
    change (initMap p t c i).isSome = true at hi
    unfold initMap at hi
    rw [if_neg fun hand => hlt hand.2] at hi
    cases hi

/-! ## One place for every register -/

/-- The register is at the given place: a position of the free list of its class,
an index of one thread's current map, or an entry of one thread's history that
changed the map and saved the register. -/
def Holds (s : CPU n) (r : PhysReg) : Place (Fin n) → Prop
  | .only k => (s.freeList r.regClass)[k]? = some r
  | .left tid i => (s.renameMap tid).map r.regClass i = some r
  | .right tid k => ∃ e, (s.historyBuffer tid)[k]? = some e ∧ e.newPhysReg ≠ e.prevPhysReg ∧
      e.prevPhysReg = r

/-- In a conserved state every register of an active class has exactly one place. -/
theorem existsUnique_holds (h : Inv p s) (hact : Active r.regClass s.vecMode)
    (hpos : r.pos < p.numPhysRegs r.regClass) :
    ∃! q, Holds s r q := by
  have hcount := congrArg (Multiset.count r) (h.conserved.active _ hact)
  rw [count_getRegIds, if_pos ⟨rfl, hpos⟩] at hcount
  unfold occurrences mapped saved at hcount
  rw [Multiset.count_add, Multiset.count_add, Multiset.count_sum', Multiset.count_sum',
    ← List.filterMap_some (l := s.freeList r.regClass), filterMap_eq_valuesBelow,
    count_valuesBelow] at hcount
  simp only [filterMap_eq_valuesBelow, count_valuesBelow] at hcount
  -- holding the register is membership in the counted sets
  refine (existsUnique_congr fun q => ?_).mpr (existsUnique_place hcount)
  cases q with
  | only k =>
    simp only [Holds, Place.In, Finset.mem_filter, Finset.mem_range, Option.bind_fun_some]
    refine ⟨fun hk => ⟨?_, hk⟩, fun hk => hk.2⟩
    exact (List.getElem?_eq_some_iff.mp hk).1
  | left tid i =>
    simp only [Holds, Place.In, Finset.mem_filter, Finset.mem_range]
    refine ⟨fun hi => ⟨h.conserved.inRange tid _ i ?_, hi⟩, fun hi => hi.2⟩
    show ((s.renameMap tid).map r.regClass i).isSome = true
    rw [hi]
    rfl
  | right tid k =>
    simp only [Holds, Place.In, Finset.mem_filter, Finset.mem_range]
    constructor
    · rintro ⟨e, hk, hne, rfl⟩
      have hch : e.changed = true := by simpa [RenameHistory.changed] using hne
      have hmem : e ∈ s.historyBuffer tid := List.mem_of_getElem? hk
      have hcls : e.prevPhysReg.regClass = e.archReg.regClass := by
        refine h.conserved.regClass_of_mem (h.conserved.active_of_mem hmem hch)
          (Multiset.mem_add.mpr (.inr (Multiset.mem_sum.mpr ⟨tid, Finset.mem_univ tid, ?_⟩)))
        exact List.mem_filterMap.mpr ⟨e, hmem, savedReg_of_changed rfl hch⟩
      refine ⟨(List.getElem?_eq_some_iff.mp hk).1, ?_⟩
      rw [hk]
      exact savedReg_of_changed hcls.symm hch
    · rintro ⟨-, hk⟩
      obtain ⟨e, he, hsaved⟩ := Option.bind_eq_some_iff.mp hk
      unfold savedReg at hsaved
      split_ifs at hsaved with hand
      exact ⟨e, he, by simpa [RenameHistory.changed] using hand.2, Option.some.inj hsaved⟩

/-! ## The free list is not empty after `canRename` -/

theorem unsetReg_ne_freeListEmpty (sb : Scoreboard) (r : PhysReg) :
    sb.unsetReg p r ≠ .error .freeListEmpty := by
  unfold Scoreboard.unsetReg
  split_ifs <;> simp

/-- Renaming through a map asks its free list only once. -/
theorem rename_ne_freeListEmpty {m : UnifiedRenameMap} {a : RegId} {pins : PhysReg → Pins}
    (h : a.regClass ≠ .MiscRegClass → fl a.regClass ≠ []) :
    m.rename p a fl pins ≠ .error .freeListEmpty := by
  intro hr
  unfold UnifiedRenameMap.rename at hr
  by_cases hc : a.regClass = .MiscRegClass
  · rw [if_pos hc] at hr
    unfold UnifiedRenameMap.lookup getMiscRegId at hr
    rw [if_pos hc] at hr
    split_ifs at hr
    simp at hr
  · rw [if_neg hc] at hr
    split_ifs at hr
    · unfold SimpleRenameMap.rename at hr
      split at hr
      · simp at hr
      · split_ifs at hr
        · simp at hr
        · simp at hr
        · split at hr
          · next hnil => exact h hc hnil
          · simp at hr
    · simp at hr

/-- One destination takes at most one register, of its own class. -/
theorem length_freeList_renameDestReg {a : RegId} (h : renameDestReg p s tid seq a = .ok (s', new))
    (c : RegClass) :
    (s.freeList c).length ≤ (s'.freeList c).length + if a.regClass = c then 1 else 0 := by
  obtain ⟨prev, map, fl, pins, sb, hren, -, -, -, -, rfl⟩ := renameDestReg_ok h
  cases hren with
  | kept hr => exact Nat.le_add_right _ _
  | allocated _ rest hc hm hfl =>
    show _ ≤ (Function.update s.freeList a.regClass rest c).length + _
    by_cases hcc : c = a.regClass
    · subst hcc
      rw [Function.update_self, hfl, if_pos rfl, List.length_cons]
    · rw [Function.update_of_ne hcc]
      exact Nat.le_add_right _ _

/-- The loop never finds a free list empty that counts its destinations. -/
theorem renameLoop_ne_freeListEmpty {rs : List RegId}
    (h : ∀ c, c ≠ .MiscRegClass → rs.countP (fun r => r.regClass = c) ≤ (s.freeList c).length) :
    renameLoop p tid seq s rs ≠ .error .freeListEmpty := by
  induction rs generalizing s with
  | nil => simp [renameLoop]
  | cons a rs ih =>
    intro hs
    rw [renameLoop] at hs
    rcases bind_eq_error.mp hs with hfail | ⟨⟨t, new⟩, ht, hs⟩
    · -- the first destination fails
      unfold renameDestReg at hfail
      rcases bind_eq_error.mp hfail with hr | ⟨r, -, hfail⟩
      · refine rename_ne_freeListEmpty (fun hc hnil => ?_) hr
        have hle := h a.regClass hc
        rw [hnil, List.countP_cons_of_pos (by simp)] at hle
        simp at hle
      · rcases bind_eq_error.mp hfail with hu | ⟨sb, -, hfail⟩
        · exact unsetReg_ne_freeListEmpty _ _ hu
        · cases hfail
    · -- a later one fails
      rcases bind_eq_error.mp hs with hfail | ⟨res, -, hs⟩
      · refine ih (fun c hc => ?_) hfail
        have hle := h c hc
        have hlen := length_freeList_renameDestReg ht c
        rw [List.countP_cons] at hle
        simp only [decide_eq_true_eq] at hle
        omega
      · cases hs

/-- After `canRename` succeeded, `getReg` finds a register for every destination. -/
theorem renameDestRegs_ne_freeListEmpty {inst : DynInst} {flat : Flattening}
    (hcan : canRename s.freeList inst.numDestRegs = true) :
    renameDestRegs p s tid inst flat ≠ .error .freeListEmpty := by
  intro hs
  have hcount : ∀ c, (inst.destRegs.map flat.dest).countP (fun r => r.regClass = c) =
      inst.numDestRegs c := fun c => by
    rw [List.countP_map]
    unfold DynInst.numDestRegs
    refine List.countP_congr fun r _ => ?_
    simp only [Function.comp, Flattening.dest, flat.regClass_eq]
  have hloop : renameLoop p tid inst.seqNum s (inst.destRegs.map flat.dest) ≠
      .error .freeListEmpty := by
    refine renameLoop_ne_freeListEmpty fun c hc => ?_
    rw [hcount]
    unfold canRename at hcan
    simp only [decide_eq_true_eq] at hcan
    cases c with
    | IntRegClass => exact hcan.1
    | FloatRegClass => exact hcan.2.1
    | VecRegClass => exact hcan.2.2.1
    | VecElemClass => exact hcan.2.2.2.1
    | VecPredRegClass => exact hcan.2.2.2.2.1
    | CCRegClass => exact hcan.2.2.2.2.2
    | MiscRegClass => exact absurd rfl hc
  unfold renameDestRegs at hs
  rcases bind_eq_error.mp hs with hfail | ⟨res, -, hs⟩
  · exact hloop hfail
  · cases hs

/-! ## The main theorem -/

/-- **Physical registers are conserved.**  In every state reached from the one the
constructor builds, by any interleaving over any number of threads of renaming,
squash (with its switch of the vector interface), removal from the history,
commit, writeback and pinning, and whatever the sequence numbers, every register
of an active class is in exactly one place; and once `canRename` succeeded,
renaming never runs into an empty free list. -/
theorem registers_conserved (p : RegFileParams) (n : ℕ) (s₀ s : CPU n)
    (hinit : CPU.init p n = .ok s₀) (hs : Reached (fun _ _ => True) (step p) s₀ s) :
    (∀ r, Active r.regClass s.vecMode → r.pos < p.numPhysRegs r.regClass → ∃! q, Holds s r q) ∧
      ∀ tid inst flat, canRename s.freeList inst.numDestRegs = true →
        renameDestRegs p s tid inst flat ≠ .error .freeListEmpty := by
  obtain ⟨hcfg, rfl⟩ := init_ok hinit
  have hinv : Inv p s := hs.invariant (fun _ _ _ h _ hstep => inv_step h hstep) (inv_init hcfg)
  exact ⟨fun r hact hpos => existsUnique_holds hinv hact hpos,
    fun tid inst flat => renameDestRegs_ne_freeListEmpty⟩

/-- A small core that renames whole vectors: one thread, one register of each
class, two physical registers, two elements per vector. -/
def smallFull : RegFileParams where
  NumVecElemPerVecReg := 2
  numArchRegs := fun c => if c = .VecElemClass then 2 else if c = .IntRegClass then 2 else 1
  zeroReg := 0
  numPhysIntRegs := 3
  numPhysFloatRegs := 2
  numPhysVecRegs := 2
  numPhysVecPredRegs := 2
  numPhysCCRegs := 2
  initVecRegRenameMode := .Full
  numThreads := 1
  elems_pos := by decide
  vecs_pos := by decide
  vecElems_eq := by decide
  zeroReg_lt := by decide

theorem int_ne_elem : RegClass.IntRegClass ≠ .VecElemClass := by decide

/-- An instruction of `smallFull` that writes integer register 1. -/
def writesInt : DynInst := ⟨1, [.scalar .IntRegClass int_ne_elem 1]⟩

/-- `flattenRegId` of an ISA without register windows or banks. -/
def flatId : Flattening := ⟨id, fun _ => rfl⟩

theorem registers_conserved_smallFull :
    ∃ s, step smallFull (bound smallFull 1 1) (.renameDestRegs 0 writesInt flatId) = .ok s ∧
      ∃! q, Holds s ⟨.IntRegClass, 1⟩ q := by
  have hinit : CPU.init smallFull 1 = .ok (bound smallFull 1 1) := init_eq (by decide)
  obtain ⟨s, hs, hmode⟩ : ∃ s, step smallFull (bound smallFull 1 1)
      (.renameDestRegs 0 writesInt flatId) = .ok s ∧ s.vecMode = .Full := ⟨_, rfl, rfl⟩
  have hreach := (Reached.refl (fun _ _ => True) (step smallFull) _).step trivial hs
  refine ⟨s, hs, (registers_conserved smallFull 1 _ s hinit hreach).1 _ ?_ (by decide)⟩
  rw [hmode]
  decide

/-- **The inactive vector interface is in no place.**  While vectors are renamed
whole, the element registers are on no free list, in no map and in no history, so
not every renameable register has a place. -/
theorem vecElem_without_place :
    ¬ ∀ (p : RegFileParams) (n : ℕ) (s₀ s : CPU n), CPU.init p n = .ok s₀ →
      Reached (fun _ _ => True) (step p) s₀ s → ∀ r : PhysReg, r.isFixedMapping = false →
        ¬ (r.regClass = .IntRegClass ∧ r.index p = p.zeroReg) →
          r.pos < p.numPhysRegs r.regClass → ∃! q, Holds s r q := by
  intro h
  obtain ⟨q, hq, -⟩ := h smallFull 1 _ _ (init_eq (by decide)) (Reached.refl _ _ _)
    ⟨.VecElemClass, 0⟩ (by decide) (by decide) (by decide)
  cases q with
  | only k => simp [Holds, bound, initFreeList, smallFull] at hq
  | left tid i => simp [Holds, bound, initMap, Active, vecModeOk, smallFull] at hq
  | right tid k => simp [Holds, bound, CPU.blank] at hq

end Gem5.O3
