/-
# The initial register mapping

The constructor of `CPU` fills the maps of one thread after the other from the
front of the shared free lists.  `init_eq` computes what its loops leave behind:
thread `t` maps register `i` of a class with `k` architectural registers to the
physical register `t * k + i`, and the free lists keep the rest.
-/
import Gem5.RenameSteps

namespace Gem5.O3

open Runs

variable {n : ℕ} {p : RegFileParams}

/-- A class whose registers are renamed in the given mode. -/
def Active (c : RegClass) (mode : VecRegRenameMode) : Prop :=
  c ≠ .MiscRegClass ∧ vecModeOk c mode = true

instance (c : RegClass) (mode : VecRegRenameMode) : Decidable (Active c mode) :=
  inferInstanceAs (Decidable (_ ∧ _))

/-! ## The registers of one class -/

/-- Consecutive entries of one class set to the given registers. -/
def bindMap (c : RegClass) : ArchMap → ℕ → List PhysReg → ArchMap
  | m, _, [] => m
  | m, k, r :: rs => bindMap c (m.set c k r) (k + 1) rs

theorem bindMap_apply (c : RegClass) (m : ArchMap) (k : ℕ) (rs : List PhysReg) (c' : RegClass)
    (i : ℕ) : bindMap c m k rs c' i =
      if c' = c ∧ k ≤ i ∧ i < k + rs.length then rs[i - k]? else m c' i := by
  induction rs generalizing m k with
  | nil =>
    rw [bindMap, if_neg]
    rintro ⟨-, h1, h2⟩
    simp only [List.length_nil] at h2
    omega
  | cons r rs ih =>
    rw [bindMap, ih, ArchMap.set_apply, List.length_cons]
    by_cases hc : c' = c
    · by_cases hi : i = k
      · subst hi
        rw [if_neg (by omega), if_pos ⟨hc, rfl⟩, if_pos ⟨hc, le_rfl, by omega⟩, Nat.sub_self]
        rfl
      · by_cases hlt : k + 1 ≤ i ∧ i < k + 1 + rs.length
        · rw [if_pos ⟨hc, hlt⟩, if_pos ⟨hc, by omega, by omega⟩,
            show i - k = i - (k + 1) + 1 by omega, List.getElem?_cons_succ]
        · rw [if_neg fun h => hlt h.2, if_neg fun h => hi h.2, if_neg]
          rintro ⟨-, h1, h2⟩
          exact hlt ⟨by omega, by omega⟩
    · rw [if_neg fun h => hc h.1, if_neg fun h => hc h.1, if_neg fun h => hc h.1]

/-- A successful `setEntry` outside the misc class. -/
theorem setEntry_eq_ok {m : UnifiedRenameMap} {a : RegId} {r : PhysReg}
    (hact : Active a.regClass m.vecMode) (hr : r.regClass = a.regClass)
    (hi : a.flatIndex p < p.numArchRegs a.regClass) :
    m.setEntry p a r = .ok ⟨m.map.set a.regClass (a.flatIndex p) r, m.vecMode⟩ := by
  unfold UnifiedRenameMap.setEntry
  rw [if_neg (not_not.mpr hr), if_neg hact.1, if_pos hact.2, if_pos hi]

/-- Binding consecutive registers of one class takes the front of its free list. -/
theorem bindRegs_class {tid : Fin n} {c : RegClass} {mode : VecRegRenameMode}
    (hact : Active c mode) {rs : List RegId} {regs rest : List PhysReg} {k : ℕ} {s : CPU n}
    (hcls : ∀ r ∈ rs, r.regClass = c) (hidx : rs.map (RegId.flatIndex p) = List.range' k rs.length)
    (hk : k + rs.length ≤ p.numArchRegs c) (hfl : s.freeList c = regs ++ rest)
    (hlen : regs.length = rs.length) (hregs : ∀ r ∈ regs, r.regClass = c)
    (hm : (s.renameMap tid).vecMode = mode) (hcm : (s.commitRenameMap tid).vecMode = mode) :
    bindRegs p tid s rs = .ok { s with
      freeList := Function.update s.freeList c rest
      renameMap := Function.update s.renameMap tid
        ⟨bindMap c (s.renameMap tid).map k regs, mode⟩
      commitRenameMap := Function.update s.commitRenameMap tid
        ⟨bindMap c (s.commitRenameMap tid).map k regs, mode⟩ } := by
  induction rs generalizing regs k s with
  | nil =>
    obtain rfl := List.length_eq_zero_iff.mp hlen
    have hupd : Function.update s.freeList c rest = s.freeList := by
      rw [← List.nil_append rest, ← hfl, Function.update_eq_self]
    rw [bindRegs, hupd, bindMap, bindMap, ← hm]
    rw [show (⟨(s.renameMap tid).map, (s.renameMap tid).vecMode⟩ : UnifiedRenameMap) =
      s.renameMap tid from rfl, hm, ← hcm,
      show (⟨(s.commitRenameMap tid).map, (s.commitRenameMap tid).vecMode⟩ : UnifiedRenameMap) =
      s.commitRenameMap tid from rfl, Function.update_eq_self, Function.update_eq_self]
  | cons a rs ih =>
    obtain ⟨r, regs, rfl⟩ := List.exists_cons_of_length_eq_add_one hlen
    have ha : a.regClass = c := hcls a List.mem_cons_self
    simp only [List.map_cons, List.length_cons, List.range'_succ, List.cons.injEq] at hidx hk hlen
    have hr : r.regClass = c := hregs r List.mem_cons_self
    have hset : ∀ m : UnifiedRenameMap, m.vecMode = mode →
        m.setEntry p a r = .ok ⟨m.map.set c k r, mode⟩ := fun m hmode => by
      rw [setEntry_eq_ok (by rw [ha, hmode]; exact hact) (by rw [hr, ha])
        (by rw [ha, hidx.1]; omega), ha, hidx.1, hmode]
    rw [bindRegs, ha, hfl]
    simp only [List.cons_append, hset _ hm, hset _ hcm]
    refine (ih (k := k + 1) (fun x hx => hcls x (List.mem_cons_of_mem a hx))
      hidx.2 (by omega) ?_ (by omega) (fun x hx => hregs x (List.mem_cons_of_mem r hx))
      ?_ ?_).trans ?_
    · exact Function.update_self _ _ _
    · simp only [Function.update_self]
    · simp only [Function.update_self]
    · simp only [Function.update_idem, Function.update_self, bindMap]

theorem bindRegs_append {tid : Fin n} (s : CPU n) (xs ys : List RegId) :
    bindRegs p tid s (xs ++ ys) = (bindRegs p tid s xs >>= fun s' => bindRegs p tid s' ys) := by
  induction xs generalizing s with
  | nil => rfl
  | cons a xs ih =>
    rw [List.cons_append, bindRegs, bindRegs]
    cases s.freeList a.regClass with
    | nil => rfl
    | cons r rest =>
      simp only
      cases (s.renameMap tid).setEntry p a r with
      | error e => rfl
      | ok m =>
        cases (s.commitRenameMap tid).setEntry p a r with
        | error e => rfl
        | ok cm => exact ih _

/-! ## The registers of one thread -/

/-- The constructor visits the registers of a class in the order of their indices. -/
theorem archRegIds_spec {c : RegClass} (hc : c ≠ .MiscRegClass) :
    (∀ r ∈ archRegIds p c, r.regClass = c) ∧
      (archRegIds p c).map (RegId.flatIndex p) = List.range (p.numArchRegs c) := by
  have hscalar : ∀ (c : RegClass) (h : c ≠ .VecElemClass) (k : ℕ),
      ((List.range k).map (RegId.scalar c h)).map (RegId.flatIndex p) = List.range k := by
    intro c h k
    rw [List.map_map]
    exact List.map_id _
  have hmem : ∀ (c : RegClass) (h : c ≠ .VecElemClass) (k : ℕ),
      ∀ r ∈ (List.range k).map (RegId.scalar c h), r.regClass = c := by
    intro c h k r hr
    obtain ⟨i, -, rfl⟩ := List.mem_map.mp hr
    rfl
  cases c with
  | IntRegClass => exact ⟨hmem _ _ _, hscalar _ _ _⟩
  | FloatRegClass => exact ⟨hmem _ _ _, hscalar _ _ _⟩
  | VecRegClass => exact ⟨hmem _ _ _, hscalar _ _ _⟩
  | VecPredRegClass => exact ⟨hmem _ _ _, hscalar _ _ _⟩
  | CCRegClass => exact ⟨hmem _ _ _, hscalar _ _ _⟩
  | MiscRegClass => exact absurd rfl hc
  | VecElemClass =>
    constructor
    · intro r hr
      obtain ⟨v, -, hr⟩ := List.mem_flatMap.mp hr
      obtain ⟨e, -, rfl⟩ := List.mem_map.mp hr
      rfl
    · show ((List.range _).flatMap _).map _ = _
      rw [p.vecElems_eq, Nat.mul_div_cancel_left _ p.vecs_pos]
      -- the elements of the first `k` vectors, for every `k`
      generalize p.numArchRegs .VecRegClass = k
      induction k with
      | zero => simp
      | succ k ih =>
        rw [List.range_succ, List.flatMap_append, List.map_append, ih, Nat.succ_mul,
          List.range_add]
        congr 1
        simp only [List.flatMap_singleton, List.map_map]
        refine List.map_congr_left fun e _ => ?_
        show p.NumVecElemPerVecReg * k + e = k * p.NumVecElemPerVecReg + e
        rw [Nat.mul_comm]

/-- Binding all registers of some classes of one thread. -/
theorem bindRegs_classes {tid : Fin n} {mode : VecRegRenameMode} {cs : List RegClass} {s : CPU n}
    (hnodup : cs.Nodup) (hact : ∀ c ∈ cs, Active c mode)
    (hlen : ∀ c ∈ cs, p.numArchRegs c ≤ (s.freeList c).length)
    (hcls : ∀ c ∈ cs, ∀ r ∈ s.freeList c, r.regClass = c)
    (hm : (s.renameMap tid).vecMode = mode) (hcm : (s.commitRenameMap tid).vecMode = mode) :
    bindRegs p tid s (cs.flatMap (archRegIds p)) = .ok { s with
      freeList := fun c => if c ∈ cs then (s.freeList c).drop (p.numArchRegs c) else s.freeList c
      renameMap := Function.update s.renameMap tid
        ⟨fun c i => if c ∈ cs ∧ i < p.numArchRegs c then (s.freeList c)[i]?
          else (s.renameMap tid).map c i, mode⟩
      commitRenameMap := Function.update s.commitRenameMap tid
        ⟨fun c i => if c ∈ cs ∧ i < p.numArchRegs c then (s.freeList c)[i]?
          else (s.commitRenameMap tid).map c i, mode⟩ } := by
  induction cs generalizing s with
  | nil =>
    have hself : ∀ f : Fin n → UnifiedRenameMap, (f tid).vecMode = mode →
        Function.update f tid ⟨(f tid).map, mode⟩ = f := fun f hf => by
      rw [← hf]
      exact Function.update_eq_self tid f
    simp [bindRegs, hself _ hm, hself _ hcm]
  | cons c cs ih =>
    have hc := hact c List.mem_cons_self
    obtain ⟨hids, hidx⟩ := archRegIds_spec (p := p) hc.1
    have hk : (archRegIds p c).length = p.numArchRegs c := by
      rw [← List.length_map, hidx, List.length_range]
    have hle := hlen c List.mem_cons_self
    have hne : ∀ c' ∈ cs, c' ≠ c := fun c' hc' heq =>
      (List.nodup_cons.mp hnodup).1 (heq ▸ hc')
    rw [List.flatMap_cons, bindRegs_append]
    rw [bindRegs_class hc hids (by rw [hidx, hk, List.range_eq_range']) (by rw [hk, Nat.zero_add])
      (List.take_append_drop (p.numArchRegs c) (s.freeList c)).symm
      (by rw [List.length_take, hk, Nat.min_eq_left hle])
      (fun r hr => hcls c List.mem_cons_self r (List.mem_of_mem_take hr)) hm hcm]
    refine (ih (List.nodup_cons.mp hnodup).2 (fun c' hc' => hact c' (List.mem_cons_of_mem c hc'))
      (fun c' hc' => ?_) (fun c' hc' r hr => ?_) ?_ ?_).trans ?_
    · simp only [Function.update_of_ne (hne c' hc')]
      exact hlen c' (List.mem_cons_of_mem c hc')
    · simp only [Function.update_of_ne (hne c' hc')] at hr
      exact hcls c' (List.mem_cons_of_mem c hc') r hr
    · simp only [Function.update_self]
    · simp only [Function.update_self]
    · -- the maps after the first class and after the rest, entry by entry
      have hmap : ∀ m : ArchMap, (fun c' i => if c' ∈ cs ∧ i < p.numArchRegs c' then
            (Function.update s.freeList c ((s.freeList c).drop (p.numArchRegs c)) c')[i]?
          else bindMap c m 0 ((s.freeList c).take (p.numArchRegs c)) c' i) =
          fun c' i => if c' ∈ c :: cs ∧ i < p.numArchRegs c' then (s.freeList c')[i]?
            else m c' i := by
        intro m
        funext c' i
        rw [bindMap_apply, List.length_take, Nat.min_eq_left hle]
        by_cases hcc : c' = c
        · subst hcc
          rw [if_neg fun h => hne c' h.1 rfl]
          by_cases hi : i < p.numArchRegs c'
          · rw [if_pos ⟨rfl, Nat.zero_le i, by omega⟩, if_pos ⟨List.mem_cons_self, hi⟩,
              Nat.sub_zero, List.getElem?_take_of_lt hi]
          · rw [if_neg (by omega), if_neg fun h => hi h.2]
        · rw [Function.update_of_ne hcc, if_neg (fun h : c' = c ∧ _ => hcc h.1)]
          refine if_congr ?_ rfl rfl
          rw [List.mem_cons, or_iff_right hcc]
      have hfree : (fun c' => if c' ∈ cs then
            (Function.update s.freeList c ((s.freeList c).drop (p.numArchRegs c)) c').drop
              (p.numArchRegs c')
          else Function.update s.freeList c ((s.freeList c).drop (p.numArchRegs c)) c') =
          fun c' => if c' ∈ c :: cs then (s.freeList c').drop (p.numArchRegs c')
            else s.freeList c' := by
        funext c'
        by_cases hcc : c' = c
        · subst hcc
          rw [if_neg fun h => hne c' h rfl, if_pos List.mem_cons_self, Function.update_self]
        · rw [Function.update_of_ne hcc]
          refine if_congr ?_ rfl rfl
          rw [List.mem_cons, or_iff_right hcc]
      simp only [Function.update_idem, Function.update_self, hfree, hmap]

/-! ## All threads -/

/-- The map the constructor gives to thread `t`. -/
def initMap (p : RegFileParams) (t : ℕ) : ArchMap := fun c i =>
  if Active c p.initVecRegRenameMode ∧ i < p.numArchRegs c then
    some ⟨c, t * p.numArchRegs c + i⟩
  else none

/-- The state after the first `k` threads were mapped. -/
def bound (p : RegFileParams) (n k : ℕ) : CPU n :=
  let maps : Fin n → UnifiedRenameMap := fun t =>
    ⟨if t.val < k then initMap p t else fun _ _ => none, p.initVecRegRenameMode⟩
  { CPU.blank p n with
    freeList := fun c => (initFreeList p c).drop (k * p.numArchRegs c)
    renameMap := maps
    commitRenameMap := maps }

theorem mem_mappedClasses (c : RegClass) :
    c ∈ mappedClasses p ↔ Active c p.initVecRegRenameMode := by
  unfold mappedClasses Active vecModeOk
  cases hm : p.initVecRegRenameMode <;> cases c <;> simp

theorem nodup_mappedClasses : (mappedClasses p).Nodup := by
  unfold mappedClasses
  cases hm : p.initVecRegRenameMode <;> simp

theorem initFreeList_of_active {c : RegClass} (hc : Active c p.initVecRegRenameMode) :
    initFreeList p c = getRegIds p c := by
  unfold initFreeList
  unfold Active vecModeOk at hc
  cases hm : p.initVecRegRenameMode <;> cases c <;> simp_all

theorem initFreeList_of_not_active {c : RegClass} (hc : ¬ Active c p.initVecRegRenameMode) :
    initFreeList p c = [] := by
  unfold initFreeList
  unfold Active vecModeOk at hc
  cases hm : p.initVecRegRenameMode <;> cases c <;> simp_all

/-- The constructor's assertions leave enough registers for every thread. -/
theorem numPhysRegs_of_configOk (h : configOk p n = true) {c : RegClass}
    (hc : c ≠ .MiscRegClass) : n * p.numArchRegs c ≤ p.numPhysRegs c := by
  unfold configOk at h
  simp only [decide_eq_true_eq] at h
  obtain ⟨hn, -, hint, hfloat, hvec, hpred, hcc⟩ := h
  have hmul : ∀ k, n * k ≤ p.numThreads * k := fun k => Nat.mul_le_mul_right k hn
  cases c with
  | IntRegClass => exact le_trans (hmul _) hint
  | FloatRegClass => exact le_trans (hmul _) hfloat
  | VecRegClass => exact le_trans (hmul _) hvec
  | VecPredRegClass => exact le_trans (hmul _) hpred
  | CCRegClass => exact le_trans (hmul _) hcc
  | MiscRegClass => exact absurd rfl hc
  | VecElemClass =>
    show n * p.numArchRegs .VecElemClass ≤ p.numPhysVecRegs * p.NumVecElemPerVecReg
    rw [p.vecElems_eq, ← Nat.mul_assoc]
    exact Nat.mul_le_mul_right _ (le_trans (hmul _) hvec)

/-- The free registers of an active class after `k` threads. -/
theorem getElem?_bound_freeList {c : RegClass} (hc : Active c p.initVecRegRenameMode) (k i : ℕ) :
    ((bound p n k).freeList c)[i]? =
      if k * p.numArchRegs c + i < p.numPhysRegs c then
        some ⟨c, k * p.numArchRegs c + i⟩
      else none := by
  show ((initFreeList p c).drop _)[i]? = _
  rw [initFreeList_of_active hc, List.getElem?_drop, getRegIds, List.getElem?_map]
  split_ifs with h
  · rw [List.getElem?_range h]
    rfl
  · rw [List.getElem?_eq_none (by simpa using h)]
    rfl

/-- Mapping one more thread. -/
theorem bindThread_bound (hcfg : configOk p n = true) {k : ℕ} (hk : k < n) :
    bindThread p (bound p n k) ⟨k, hk⟩ = .ok (bound p n (k + 1)) := by
  have hphys : ∀ c, Active c p.initVecRegRenameMode →
      k * p.numArchRegs c + p.numArchRegs c ≤ p.numPhysRegs c := fun c hc => by
    have h1 := numPhysRegs_of_configOk hcfg hc.1
    have h2 : (k + 1) * p.numArchRegs c ≤ n * p.numArchRegs c := Nat.mul_le_mul_right _ hk
    rw [Nat.succ_mul] at h2
    omega
  unfold bindThread
  rw [bindRegs_classes nodup_mappedClasses (fun c hc => (mem_mappedClasses c).mp hc)
    (fun c hc => ?_) (fun c hc r hr => ?_) rfl rfl]
  · have hmaps : Function.update (bound p n k).renameMap ⟨k, hk⟩
        ⟨fun c i => if c ∈ mappedClasses p ∧ i < p.numArchRegs c then
            ((bound p n k).freeList c)[i]?
          else ((bound p n k).renameMap ⟨k, hk⟩).map c i, p.initVecRegRenameMode⟩ =
        (bound p n (k + 1)).renameMap := by
      funext t
      by_cases ht : t = ⟨k, hk⟩
      · subst ht
        rw [Function.update_self]
        simp only [bound, lt_irrefl, if_false, Nat.lt_succ_self, if_true]
        congr 1
        funext c i
        unfold initMap
        by_cases hand : Active c p.initVecRegRenameMode ∧ i < p.numArchRegs c
        · have hphys' := hphys c hand.1
          have helem := getElem?_bound_freeList (n := n) hand.1 k i
          rw [if_pos (by omega)] at helem
          rw [if_pos ⟨(mem_mappedClasses c).mpr hand.1, hand.2⟩, if_pos hand]
          exact helem
        · rw [if_neg fun h => hand ⟨(mem_mappedClasses c).mp h.1, h.2⟩, if_neg hand]
      · have hval : t.val ≠ k := fun heq => ht (Fin.ext heq)
        rw [Function.update_of_ne ht]
        have hiff : t.val < k ↔ t.val < k + 1 := by omega
        simp only [bound, hiff]
    have hfree : (fun c => if c ∈ mappedClasses p then
          ((bound p n k).freeList c).drop (p.numArchRegs c) else (bound p n k).freeList c) =
        (bound p n (k + 1)).freeList := by
      funext c
      by_cases hc : c ∈ mappedClasses p
      · rw [if_pos hc]
        show ((initFreeList p c).drop _).drop _ = (initFreeList p c).drop _
        rw [List.drop_drop, Nat.succ_mul]
      · rw [if_neg hc]
        rw [mem_mappedClasses] at hc
        show (initFreeList p c).drop _ = (initFreeList p c).drop _
        rw [initFreeList_of_not_active hc, List.drop_nil, List.drop_nil]
    rw [Except.ok.injEq]
    exact congrArg₂ (fun fl maps => { CPU.blank p n with
      freeList := fl, renameMap := maps, commitRenameMap := maps }) hfree hmaps
  · rw [mem_mappedClasses] at hc
    have hphys' := hphys c hc
    show _ ≤ ((initFreeList p c).drop _).length
    rw [initFreeList_of_active hc, List.length_drop, getRegIds, List.length_map, List.length_range]
    omega
  · rw [mem_mappedClasses] at hc
    have hmem : r ∈ getRegIds p c := by
      rw [← initFreeList_of_active hc]
      exact List.mem_of_mem_drop hr
    obtain ⟨i, -, rfl⟩ := List.mem_map.mp hmem
    rfl

/-- Mapping the threads from `k` on. -/
theorem bindThreads_bound (hcfg : configOk p n = true) {k : ℕ} {tids : List (Fin n)}
    (htids : tids.map Fin.val = List.range' k tids.length) (hlen : k + tids.length = n) :
    bindThreads p (bound p n k) tids = .ok (bound p n n) := by
  induction tids generalizing k with
  | nil =>
    rw [List.length_nil, Nat.add_zero] at hlen
    rw [bindThreads, hlen]
  | cons tid tids ih =>
    simp only [List.map_cons, List.length_cons, List.range'_succ, List.cons.injEq] at htids hlen
    have hk : k < n := by omega
    have htid : tid = ⟨k, hk⟩ := Fin.ext htids.1
    rw [bindThreads, htid, bindThread_bound hcfg hk]
    exact ih htids.2 (by omega)

/-- **What the constructor computes.**  Under its assertions it succeeds, and its
loops leave thread `t` with register `i` of each class mapped to `t * k + i`. -/
theorem init_eq (hcfg : configOk p n = true) : CPU.init p n = .ok (bound p n n) := by
  unfold CPU.init
  rw [if_pos hcfg]
  have hblank : CPU.blank p n = bound p n 0 := by
    simp [bound, CPU.blank]
  rw [hblank]
  refine bindThreads_bound hcfg ?_ ?_
  · rw [List.length_finRange, List.map_coe_finRange_eq_range, List.range_eq_range']
  · rw [List.length_finRange, Nat.zero_add]

theorem init_ok {s : CPU n} (h : CPU.init p n = .ok s) :
    configOk p n = true ∧ s = bound p n n := by
  by_cases hcfg : configOk p n = true
  · rw [init_eq hcfg] at h
    cases h
    exact ⟨hcfg, rfl⟩
  · unfold CPU.init at h
    rw [if_neg hcfg] at h
    cases h

end Gem5.O3
