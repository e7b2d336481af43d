/-
# Switching the vector interface

`CPU::switchRenameMode` changes both maps of a thread from whole vectors to
elements or back, over one register file in which elements and vectors share
storage.  Splitting renames nothing: the elements of a vector stay where the
vector is.  Stitching copies the elements of the thread into the first vectors of
the file, and it does so twice, once for each map; the second copy reads what the
first one wrote.  The values therefore survive exactly when the elements that the
file displaced already held the right values (`StableUnderStitching`), and the
count of free registers that `switchFreeList` checks fits a single thread only.
-/
import Gem5.RegisterConservation

namespace Gem5.O3

open Runs Counting

variable {n : ℕ} {p : RegFileParams}

/-! ## Reading vectors -/

/-- The class whose map is in use. -/
def VecRegRenameMode.vecClass : VecRegRenameMode → RegClass
  | .Full => .VecRegClass
  | .Elem => .VecElemClass

/-- The interface that is not in use. -/
def VecRegRenameMode.other : VecRegRenameMode → VecRegRenameMode
  | .Full => .Elem
  | .Elem => .Full

/-- Element `e` of the architectural vector `v`, read through a map in its own mode:
`readArchVecReg` or `readArchVecElem`. -/
def readArchElem (p : RegFileParams) (m : UnifiedRenameMap) (rf : VectorRegFile) (v e : ℕ) :
    Option UInt32 :=
  match m.vecMode with
  | .Full => (m.map .VecRegClass v).map fun r => rf (r.index p) e
  | .Elem => (m.map .VecElemClass (p.NumVecElemPerVecReg * v + e)).map fun r =>
      rf (r.index p) (r.elemIndex p)

/-! ## Settled states -/

/-- Everything that mentions a register of the interface in use: the free list, the
maps, and the in-flight renames of the threads other than `tid`. -/
def placements (p : RegFileParams) (s : CPU n) (tid : Fin n) : Multiset PhysReg :=
  (s.freeList s.vecMode.vecClass : Multiset PhysReg) +
    ∑ t, mapped p s.vecMode.vecClass (s.renameMap t).map +
    ∑ t ∈ Finset.univ.erase tid, saved s.vecMode.vecClass (s.historyBuffer t)

/-- Thread `tid` has no rename in flight, and every physical vector (or element) is
in exactly one place. -/
structure Settled (p : RegFileParams) (s : CPU n) (tid : Fin n) : Prop where
  maps_eq : s.commitRenameMap tid = s.renameMap tid
  mode : ∀ t, (s.renameMap t).vecMode = s.vecMode
  total : ∀ t, ∀ i < p.numArchRegs s.vecMode.vecClass,
    ((s.renameMap t).map s.vecMode.vecClass i).isSome = true
  once : placements p s tid = (getRegIds p s.vecMode.vecClass : Multiset PhysReg)
  idle : s.freeList s.vecMode.other.vecClass = []

/-- A register that a thread maps, or that an in-flight rename of another thread
holds. -/
def Taken (p : RegFileParams) (s : CPU n) (tid : Fin n) (r : PhysReg) : Prop :=
  (∃ t, ∃ i < p.numArchRegs s.vecMode.vecClass,
      (s.renameMap t).map s.vecMode.vecClass i = some r) ∨
    ∃ t, t ≠ tid ∧ r ∈ saved s.vecMode.vecClass (s.historyBuffer t)

/-- **What a switch should leave behind**: the values of all threads, equal maps of
the thread, and a free list of exactly the registers that are not taken. -/
structure Preserved (p : RegFileParams) (s s' : CPU n) (tid : Fin n) : Prop where
  values : ∀ t, ∀ v < p.numArchRegs .VecRegClass, ∀ e < p.NumVecElemPerVecReg,
    readArchElem p (s'.renameMap t) s'.vectorRegFile v e =
      readArchElem p (s.renameMap t) s.vectorRegFile v e
  commitValues : ∀ v < p.numArchRegs .VecRegClass, ∀ e < p.NumVecElemPerVecReg,
    readArchElem p (s'.commitRenameMap tid) s'.vectorRegFile v e =
      readArchElem p (s.commitRenameMap tid) s.vectorRegFile v e
  maps_eq : s'.commitRenameMap tid = s'.renameMap tid
  free : ∀ r, r ∈ s'.freeList s'.vecMode.vecClass ↔
    r ∈ getRegIds p s'.vecMode.vecClass ∧ ¬ Taken p s' tid r

/-- Architectural elements that live in the first vectors of the file hold the value
of the architectural element that stitching puts there. -/
def StableUnderStitching (p : RegFileParams) (s : CPU n) (tid : Fin n) : Prop :=
  ∀ v < p.numArchRegs .VecRegClass, ∀ e < p.NumVecElemPerVecReg, ∀ r,
    (s.renameMap tid).map .VecElemClass (p.NumVecElemPerVecReg * v + e) = some r →
      r.index p < p.numArchRegs .VecRegClass →
        readArchElem p (s.renameMap tid) s.vectorRegFile (r.index p) (r.elemIndex p) =
          readArchElem p (s.renameMap tid) s.vectorRegFile v e

theorem mem_getRegIds {c : RegClass} {r : PhysReg} :
    r ∈ getRegIds p c ↔ r.regClass = c ∧ r.pos < p.numPhysRegs c := by
  unfold getRegIds
  rw [List.mem_map]
  constructor
  · rintro ⟨i, hi, rfl⟩
    exact ⟨rfl, List.mem_range.mp hi⟩
  · rintro ⟨rfl, hr⟩
    exact ⟨r.pos, List.mem_range.mpr hr, rfl⟩

theorem nodup_getRegIds (c : RegClass) : (getRegIds p c).Nodup :=
  List.nodup_range.map fun _ _ h => (PhysReg.mk.inj h).2

theorem mem_mapped {c : RegClass} {m : ArchMap} {r : PhysReg} :
    r ∈ mapped p c m ↔ ∃ i < p.numArchRegs c, m c i = some r := mem_valuesBelow

theorem numArchRegs_vecClass_pos (mode : VecRegRenameMode) : 0 < p.numArchRegs mode.vecClass := by
  cases mode with
  | Full => exact p.vecs_pos
  | Elem =>
    show 0 < p.numArchRegs .VecElemClass
    rw [p.vecElems_eq]
    exact Nat.mul_pos p.vecs_pos p.elems_pos

/-- A register is taken when it is among the placements outside the free list. -/
theorem taken_iff {s : CPU n} {tid : Fin n} {r : PhysReg} :
    Taken p s tid r ↔ r ∈ ∑ t, mapped p s.vecMode.vecClass (s.renameMap t).map +
      ∑ t ∈ Finset.univ.erase tid, saved s.vecMode.vecClass (s.historyBuffer t) := by
  unfold Taken
  rw [Multiset.mem_add, Multiset.mem_sum, Multiset.mem_sum]
  simp only [mem_mapped, Finset.mem_univ, true_and, Finset.mem_erase, and_true]

/-- In a state where everything has one place, what is not taken is free. -/
theorem mem_free_iff {s : CPU n} {tid : Fin n}
    (h : placements p s tid = (getRegIds p s.vecMode.vecClass : Multiset PhysReg)) (r : PhysReg) :
    r ∈ s.freeList s.vecMode.vecClass ↔
      r ∈ getRegIds p s.vecMode.vecClass ∧ ¬ Taken p s tid r := by
  have hnodup : (placements p s tid).Nodup := by
    rw [h]
    exact Multiset.coe_nodup.mpr (nodup_getRegIds _)
  have hmem : r ∈ getRegIds p s.vecMode.vecClass ↔ r ∈ placements p s tid := by
    rw [h, Multiset.mem_coe]
  unfold placements at hnodup hmem
  rw [add_assoc] at hnodup hmem
  rw [hmem, Multiset.mem_add, ← taken_iff, Multiset.mem_coe]
  constructor
  · intro hfree
    refine ⟨Or.inl hfree, fun htaken => ?_⟩
    exact Multiset.disjoint_left.mp (Multiset.nodup_add.mp hnodup).2.2
      (Multiset.mem_coe.mpr hfree) (taken_iff.mp htaken)
  · rintro ⟨hfree | htaken, hnot⟩
    · exact hfree
    · exact absurd htaken hnot

/-- What a map of a settled state mentions is a register of the file. -/
theorem Settled.reg_mem {s : CPU n} {tid : Fin n} (h : Settled p s tid) {t : Fin n} {i : ℕ}
    {r : PhysReg} (hi : i < p.numArchRegs s.vecMode.vecClass)
    (hr : (s.renameMap t).map s.vecMode.vecClass i = some r) :
    r ∈ getRegIds p s.vecMode.vecClass := by
  rw [← Multiset.mem_coe, ← h.once]
  refine Multiset.mem_add.mpr (Or.inl (Multiset.mem_add.mpr (Or.inr ?_)))
  exact Multiset.mem_sum.mpr ⟨t, Finset.mem_univ t, mem_mapped.mpr ⟨i, hi, hr⟩⟩

/-- The sizes of the free list and of what is taken add up. -/
theorem Settled.card {s : CPU n} {tid : Fin n} (h : Settled p s tid) :
    (s.freeList s.vecMode.vecClass).length + n * p.numArchRegs s.vecMode.vecClass +
      (∑ t ∈ Finset.univ.erase tid, saved s.vecMode.vecClass (s.historyBuffer t)).card =
        p.numPhysRegs s.vecMode.vecClass := by
  have hcard := congrArg Multiset.card h.once
  have hmaps : ∀ t, (mapped p s.vecMode.vecClass (s.renameMap t).map).card =
      p.numArchRegs s.vecMode.vecClass := fun t => card_valuesBelow (h.total t)
  unfold placements at hcard
  rw [Multiset.card_add, Multiset.card_add, Multiset.card_sum,
    Finset.sum_congr rfl fun t _ => hmaps t, Finset.sum_const, Finset.card_univ,
    Fintype.card_fin, Multiset.coe_card, Multiset.coe_card] at hcard
  simpa [getRegIds] using hcard

/-- The count that `switchFreeList` checks is the count of a single thread. -/
theorem Settled.length_eq_iff {s : CPU n} {tid : Fin n} (h : Settled p s tid) :
    (s.freeList s.vecMode.vecClass).length =
      p.numPhysRegs s.vecMode.vecClass - p.numArchRegs s.vecMode.vecClass ↔ n = 1 := by
  have hcard := h.card
  have hpos := numArchRegs_vecClass_pos (p := p) s.vecMode
  constructor
  · intro hlen
    have hle : p.numArchRegs s.vecMode.vecClass ≤ n * p.numArchRegs s.vecMode.vecClass :=
      Nat.le_mul_of_pos_left _ tid.pos
    have hone : n * p.numArchRegs s.vecMode.vecClass = 1 * p.numArchRegs s.vecMode.vecClass := by
      omega
    exact Nat.eq_of_mul_eq_mul_right hpos hone
  · intro hn
    subst hn
    have hnone : (Finset.univ : Finset (Fin 1)).erase tid = ∅ := by
      rw [Subsingleton.elim tid 0]
      rfl
    rw [hnone, Finset.sum_empty, Multiset.card_zero] at hcard
    omega

/-! ## Marking the vectors ready -/

/-- Looking up registers that are all mapped. -/
theorem lookups_eq_ok {m : UnifiedRenameMap} {P : PhysReg → Prop} {l : List RegId}
    (h : ∀ a ∈ l, ∃ r, m.lookup p a = .ok r ∧ P r) :
    ∃ regs, lookups p m l = .ok regs ∧ ∀ r ∈ regs, P r := by
  induction l with
  | nil => exact ⟨[], rfl, fun _ h => absurd h List.not_mem_nil⟩
  | cons a l ih =>
    obtain ⟨r, hr, hP⟩ := h a List.mem_cons_self
    obtain ⟨regs, hregs, hall⟩ := ih fun b hb => h b (List.mem_cons_of_mem a hb)
    refine ⟨r :: regs, ?_, List.forall_mem_cons.mpr ⟨hP, hall⟩⟩
    exact bind_eq_ok.mpr ⟨r, hr, bind_eq_ok.mpr ⟨regs, hregs, rfl⟩⟩

/-- Marking registers of the file ready. -/
theorem setRegs_eq_ok {regs : List PhysReg} (h : ∀ r ∈ regs, r.flatIndex p < p.totalNumRegs)
    (sb : Scoreboard) : ∃ sb', setRegs p sb regs = .ok sb' := by
  induction regs generalizing sb with
  | nil => exact ⟨sb, rfl⟩
  | cons r regs ih =>
    obtain ⟨sb₁, hsb₁⟩ : ∃ sb₁, sb.setReg p r = .ok sb₁ := by
      unfold Scoreboard.setReg
      rw [if_neg (not_le.mpr (h r List.mem_cons_self))]
      split_ifs
      · exact ⟨_, rfl⟩
      · exact ⟨_, rfl⟩
    obtain ⟨sb', hsb'⟩ := ih (fun r' hr' => h r' (List.mem_cons_of_mem r hr')) sb₁
    exact ⟨sb', bind_eq_ok.mpr ⟨sb₁, hsb₁, hsb'⟩⟩

theorem flatIndex_lt {mode : VecRegRenameMode} {r : PhysReg}
    (h : r ∈ getRegIds p mode.vecClass) : r.flatIndex p < p.totalNumRegs := by
  obtain ⟨hc, hr⟩ := mem_getRegIds.mp h
  unfold PhysReg.flatIndex RegFileParams.totalNumRegs
  rw [hc]
  cases mode with
  | Full =>
    change r.pos < p.numPhysVecRegs at hr
    rw [if_neg (by decide)]
    simp only [VecRegRenameMode.vecClass, RegFileParams.flatBase]
    omega
  | Elem =>
    change r.pos < p.numPhysVecRegs * p.NumVecElemPerVecReg at hr
    rw [if_neg (by decide)]
    simp only [VecRegRenameMode.vecClass, RegFileParams.flatBase]
    omega

/-- `setVectorsAsReady` succeeds when the commit map is total on the vectors. -/
theorem setVectorsAsReady_eq_ok {s : CPU n} (tid : Fin n)
    (hmode : (s.commitRenameMap tid).vecMode = s.vecMode)
    (h : ∀ i < p.numArchRegs s.vecMode.vecClass, ∃ r ∈ getRegIds p s.vecMode.vecClass,
      (s.commitRenameMap tid).map s.vecMode.vecClass i = some r) :
    ∃ sb, setVectorsAsReady p s tid = .ok { s with scoreboard := sb } := by
  have hclass : (if s.vecMode = .Elem then RegClass.VecElemClass else .VecRegClass) =
      s.vecMode.vecClass := by
    cases s.vecMode <;> rfl
  have hne : s.vecMode.vecClass ≠ .MiscRegClass := by
    cases s.vecMode <;> decide
  have hok : vecModeOk s.vecMode.vecClass s.vecMode = true := by
    cases s.vecMode <;> rfl
  obtain ⟨hids, hidx⟩ := archRegIds_spec (p := p) hne
  obtain ⟨regs, hregs, hmem⟩ := lookups_eq_ok (p := p) (m := s.commitRenameMap tid)
    (P := fun r => r ∈ getRegIds p s.vecMode.vecClass) (l := archRegIds p s.vecMode.vecClass)
    fun a ha => by
      have hlt : a.flatIndex p < p.numArchRegs s.vecMode.vecClass := by
        rw [← List.mem_range, ← hidx]
        exact List.mem_map_of_mem ha
      obtain ⟨r, hr, hmap⟩ := h _ hlt
      refine ⟨r, ?_, hr⟩
      unfold UnifiedRenameMap.lookup
      rw [hids a ha, if_neg hne, hmode, if_pos hok, hmap]
  obtain ⟨sb, hsb⟩ := setRegs_eq_ok (fun r hr => flatIndex_lt (hmem r hr)) s.scoreboard
  refine ⟨sb, ?_⟩
  unfold setVectorsAsReady
  rw [hclass]
  exact bind_eq_ok.mpr ⟨regs, hregs, bind_eq_ok.mpr ⟨sb, hsb, rfl⟩⟩

/-! ## What the switch computes -/

/-- The file after the elements of a map were stitched into its first vectors. -/
def stitchFile (p : RegFileParams) (m : ArchMap) (rf : VectorRegFile) : VectorRegFile :=
  fun v e => if v < p.numArchRegs .VecRegClass then stitched p m rf v e else rf v e

/-- The state after a switch of the single thread to elements. -/
def CPU.split (p : RegFileParams) (s : CPU n) (tid : Fin n) (sb : Scoreboard) : CPU n :=
  let map : UnifiedRenameMap := ⟨splitMap p (s.renameMap tid).map, .Elem⟩
  { s with
    vecMode := .Elem
    renameMap := Function.update s.renameMap tid map
    commitRenameMap := Function.update s.commitRenameMap tid map
    freeList := Function.update (Function.update s.freeList .VecElemClass
      ((s.freeList .VecRegClass).flatMap (getRegElemIds p))) .VecRegClass []
    scoreboard := sb }

/-- The state after a switch of the single thread to whole vectors: the elements were
stitched twice, the second time out of the file that the first time had written. -/
def CPU.stitch (p : RegFileParams) (s : CPU n) (tid : Fin n) (sb : Scoreboard) : CPU n :=
  let map : UnifiedRenameMap := ⟨stitchMap p (s.renameMap tid).map, .Full⟩
  { s with
    vecMode := .Full
    renameMap := Function.update s.renameMap tid map
    commitRenameMap := Function.update s.commitRenameMap tid map
    freeList := Function.update (Function.update s.freeList .VecRegClass
      ((getRegIds p .VecRegClass).drop (p.numArchRegs .VecRegClass))) .VecElemClass []
    vectorRegFile := stitchFile p (s.renameMap tid).map
      (stitchFile p (s.renameMap tid).map s.vectorRegFile)
    scoreboard := sb }

/-- Splitting a map of vectors leaves the file alone. -/
theorem switchMode_elem {m : UnifiedRenameMap} (hm : m.vecMode = .Full)
    (h : ∀ i < p.numArchRegs .VecRegClass, ∃ r ∈ getRegIds p .VecRegClass,
      m.map .VecRegClass i = some r) (rf : VectorRegFile) :
    m.switchMode p .Elem rf = .ok (⟨splitMap p m.map, .Elem⟩, rf) := by
  have hentries : vecEntriesOk p m.map = .ok () := by
    unfold vecEntriesOk
    rw [if_neg, if_neg]
    · rintro ⟨i, hi, hclass⟩
      obtain ⟨r, hr, hri⟩ := h i (List.mem_range.mp hi)
      rw [hri, Option.map_some, (mem_getRegIds.mp hr).1] at hclass
      exact hclass rfl
    · rintro ⟨i, hi, hnone⟩
      obtain ⟨r, -, hri⟩ := h i (List.mem_range.mp hi)
      rw [hri] at hnone
      cases hnone
  unfold UnifiedRenameMap.switchMode
  rw [if_pos ⟨rfl, hm⟩, hentries]
  rfl

/-- Stitching a total map of elements. -/
theorem switchMode_full {m : UnifiedRenameMap} (hm : m.vecMode = .Elem)
    (h : ∀ i < p.numArchRegs .VecElemClass, (m.map .VecElemClass i).isSome = true)
    (rf : VectorRegFile) :
    m.switchMode p .Full rf = .ok (⟨stitchMap p m.map, .Full⟩, stitchFile p m.map rf) := by
  unfold UnifiedRenameMap.switchMode
  rw [if_neg (by rintro ⟨hmode, -⟩; cases hmode), if_pos ⟨rfl, hm⟩, if_neg]
  · rfl
  · rintro ⟨i, hi, hnone⟩
    have hsome := h i (List.mem_range.mp hi)
    rw [hnone] at hsome
    cases hsome

/-- The map of a settled state finds a register of the file at every index. -/
theorem Settled.exists_reg {s : CPU n} {tid : Fin n} (h : Settled p s tid) (t : Fin n) {i : ℕ}
    (hi : i < p.numArchRegs s.vecMode.vecClass) :
    ∃ r ∈ getRegIds p s.vecMode.vecClass, (s.renameMap t).map s.vecMode.vecClass i = some r := by
  obtain ⟨r, hr⟩ := Option.isSome_iff_exists.mp (h.total t i hi)
  exact ⟨r, h.reg_mem hi hr, hr⟩

/-- A file that holds the elements of a thread holds that many whole vectors. -/
theorem Settled.vecs_le {s : CPU n} {tid : Fin n} (h : Settled p s tid)
    (helem : s.vecMode = .Elem) : p.numArchRegs .VecRegClass ≤ p.numPhysVecRegs := by
  have hcard := h.card
  rw [helem] at hcard
  change _ + n * p.numArchRegs .VecElemClass + _ = p.numPhysVecRegs * p.NumVecElemPerVecReg at hcard
  have hone : p.numArchRegs .VecElemClass ≤ n * p.numArchRegs .VecElemClass :=
    Nat.le_mul_of_pos_left _ tid.pos
  refine Nat.le_of_mul_le_mul_right ?_ p.elems_pos
  rw [← p.vecElems_eq]
  omega

/-- **A switch to elements succeeds** when the free list passes the count. -/
theorem Settled.switch_elem {s : CPU n} {tid : Fin n} (h : Settled p s tid)
    (hfull : s.vecMode = .Full) (hn : n = 1) :
    ∃ sb, switchRenameMode p s tid .Elem = .ok (s.split p tid sb) := by
  have hlen := h.length_eq_iff.mpr hn
  have hregs := fun i => h.exists_reg tid (i := i)
  have hmode := h.mode tid
  have hidle := h.idle
  rw [hfull] at hlen hregs hmode hidle
  simp only [VecRegRenameMode.vecClass, VecRegRenameMode.other] at hlen hregs hidle
  obtain ⟨sb, hsb⟩ := setVectorsAsReady_eq_ok (p := p) (s := s.split p tid s.scoreboard)
    tid (by simp only [CPU.split, Function.update_self]) fun i hi => by
      simp only [CPU.split, Function.update_self]
      change i < p.numArchRegs .VecElemClass at hi
      have hdiv : i / p.NumVecElemPerVecReg < p.numArchRegs .VecRegClass := by
        rw [Nat.div_lt_iff_lt_mul p.elems_pos, ← p.vecElems_eq]
        exact hi
      obtain ⟨r, hr, hri⟩ := hregs _ hdiv
      have hpos : r.pos < p.numPhysVecRegs := (mem_getRegIds.mp hr).2
      refine ⟨⟨.VecElemClass, r.pos * p.NumVecElemPerVecReg + i % p.NumVecElemPerVecReg⟩,
        mem_getRegIds.mpr ⟨rfl, ?_⟩, ?_⟩
      · show _ < p.numPhysVecRegs * p.NumVecElemPerVecReg
        calc r.pos * p.NumVecElemPerVecReg + i % p.NumVecElemPerVecReg
            < r.pos * p.NumVecElemPerVecReg + p.NumVecElemPerVecReg :=
              Nat.add_lt_add_left (Nat.mod_lt _ p.elems_pos) _
          _ = (r.pos + 1) * p.NumVecElemPerVecReg := (Nat.succ_mul _ _).symm
          _ ≤ p.numPhysVecRegs * p.NumVecElemPerVecReg := Nat.mul_le_mul_right _ hpos
      · show splitMap p _ .VecElemClass i = _
        unfold splitMap splitEntry
        rw [Function.update_self, if_pos hi, hri]
        rfl
  refine ⟨sb, ?_⟩
  unfold switchRenameMode
  rw [if_neg (by rw [hfull]; decide), h.maps_eq, switchMode_elem hmode hregs]
  refine bind_eq_ok.mpr ⟨_, rfl, bind_eq_ok.mpr ⟨_, switchMode_elem hmode hregs _,
    bind_eq_ok.mpr ⟨_, ?_, hsb⟩⟩⟩
  unfold UnifiedRenameMap.switchFreeList
  simp only
  rw [if_neg (not_not.mpr hidle), if_neg (not_not.mpr (by exact hlen))]

/-- **A switch to whole vectors succeeds** when the free list passes the count. -/
theorem Settled.switch_full {s : CPU n} {tid : Fin n} (h : Settled p s tid)
    (helem : s.vecMode = .Elem) (hn : n = 1) :
    ∃ sb, switchRenameMode p s tid .Full = .ok (s.stitch p tid sb) := by
  have hlen := h.length_eq_iff.mpr hn
  have htotal := h.total tid
  have hmode := h.mode tid
  have hidle := h.idle
  have hle := h.vecs_le helem
  rw [helem] at hlen htotal hmode hidle
  simp only [VecRegRenameMode.vecClass, VecRegRenameMode.other] at hlen htotal hidle
  obtain ⟨sb, hsb⟩ := setVectorsAsReady_eq_ok (p := p) (s := s.stitch p tid s.scoreboard)
    tid (by simp only [CPU.stitch, Function.update_self]) fun i hi => by
      simp only [CPU.stitch, Function.update_self]
      change i < p.numArchRegs .VecRegClass at hi
      refine ⟨⟨.VecRegClass, i⟩, mem_getRegIds.mpr ⟨rfl, lt_of_lt_of_le hi hle⟩, ?_⟩
      show stitchMap p _ .VecRegClass i = _
      unfold stitchMap
      rw [Function.update_self, if_pos hi]
  refine ⟨sb, ?_⟩
  unfold switchRenameMode
  rw [if_neg (by rw [helem]; decide), h.maps_eq, switchMode_full hmode htotal]
  refine bind_eq_ok.mpr ⟨_, rfl, bind_eq_ok.mpr ⟨_, switchMode_full hmode htotal _,
    bind_eq_ok.mpr ⟨_, ?_, hsb⟩⟩⟩
  unfold UnifiedRenameMap.switchFreeList
  simp only
  rw [if_neg (not_not.mpr hidle), if_neg (not_not.mpr hlen)]

/-! ## One thread -/

/-- With one thread the placements are the free list and the thread's map. -/
theorem placements_single (s : CPU 1) (tid : Fin 1) :
    placements p s tid = (s.freeList s.vecMode.vecClass : Multiset PhysReg) +
      mapped p s.vecMode.vecClass (s.renameMap tid).map := by
  have hnone : (Finset.univ : Finset (Fin 1)).erase tid = ∅ := by
    rw [Subsingleton.elim tid 0]
    rfl
  unfold placements
  rw [hnone, Finset.sum_empty, add_zero, Fintype.sum_unique, Subsingleton.elim tid default]

theorem splitMap_elem {m : ArchMap} {i : ℕ} (hi : i < p.numArchRegs .VecElemClass) :
    splitMap p m .VecElemClass i = splitEntry p m i := by
  unfold splitMap
  rw [Function.update_self, if_pos hi]

theorem stitchMap_vec {m : ArchMap} {i : ℕ} (hi : i < p.numArchRegs .VecRegClass) :
    stitchMap p m .VecRegClass i = some ⟨.VecRegClass, i⟩ := by
  unfold stitchMap
  rw [Function.update_self, if_pos hi]

/-- The flat index of an element of an architectural vector. -/
theorem elem_lt {v e : ℕ} (hv : v < p.numArchRegs .VecRegClass) (he : e < p.NumVecElemPerVecReg) :
    p.NumVecElemPerVecReg * v + e < p.numArchRegs .VecElemClass := by
  rw [p.vecElems_eq]
  calc p.NumVecElemPerVecReg * v + e < p.NumVecElemPerVecReg * v + p.NumVecElemPerVecReg :=
        Nat.add_lt_add_left he _
    _ = (v + 1) * p.NumVecElemPerVecReg := by rw [Nat.succ_mul, Nat.mul_comm]
    _ ≤ p.numArchRegs .VecRegClass * p.NumVecElemPerVecReg := Nat.mul_le_mul_right _ hv

/-- An element of a physical vector carries the index of the vector. -/
theorem elem_index {v e : ℕ} (he : e < p.NumVecElemPerVecReg) :
    (PhysReg.mk .VecElemClass (v * p.NumVecElemPerVecReg + e)).index p = v ∧
      (PhysReg.mk .VecElemClass (v * p.NumVecElemPerVecReg + e)).elemIndex p = e := by
  constructor
  · unfold PhysReg.index
    rw [if_pos rfl, Nat.mul_comm, Nat.mul_add_div p.elems_pos, Nat.div_eq_of_lt he, Nat.add_zero]
  · unfold PhysReg.elemIndex
    rw [Nat.mul_add_mod', Nat.mod_eq_of_lt he]

/-- Splitting a map of vectors changes no value. -/
theorem readArchElem_splitMap {m : UnifiedRenameMap} (hm : m.vecMode = .Full)
    (h : ∀ i < p.numArchRegs .VecRegClass, ∃ r ∈ getRegIds p .VecRegClass,
      m.map .VecRegClass i = some r) (rf : VectorRegFile) {v e : ℕ}
    (hv : v < p.numArchRegs .VecRegClass) (he : e < p.NumVecElemPerVecReg) :
    readArchElem p ⟨splitMap p m.map, .Elem⟩ rf v e = readArchElem p m rf v e := by
  obtain ⟨r, hr, hrv⟩ := h v hv
  have hdiv : (p.NumVecElemPerVecReg * v + e) / p.NumVecElemPerVecReg = v := by
    rw [Nat.mul_add_div p.elems_pos, Nat.div_eq_of_lt he, Nat.add_zero]
  have hmod : (p.NumVecElemPerVecReg * v + e) % p.NumVecElemPerVecReg = e := by
    rw [Nat.mul_add_mod, Nat.mod_eq_of_lt he]
  have hindex : r.index p = r.pos := by
    unfold PhysReg.index
    rw [if_neg (by rw [(mem_getRegIds.mp hr).1]; decide)]
  unfold readArchElem
  rw [hm]
  simp only
  rw [splitMap_elem (elem_lt hv he)]
  unfold splitEntry
  rw [hdiv, hmod, hrv, Option.map_some, Option.map_some, Option.map_some, hindex,
    (elem_index he).1, (elem_index he).2]

/-- The value of a stitched vector is the value of the element it was stitched from. -/
theorem some_stitched {m : UnifiedRenameMap} (hm : m.vecMode = .Elem)
    (h : ∀ i < p.numArchRegs .VecElemClass, (m.map .VecElemClass i).isSome = true)
    (rf : VectorRegFile) {v e : ℕ} (hv : v < p.numArchRegs .VecRegClass)
    (he : e < p.NumVecElemPerVecReg) :
    some (stitched p m.map rf v e) = readArchElem p m rf v e := by
  obtain ⟨r, hr⟩ := Option.isSome_iff_exists.mp (h _ (elem_lt hv he))
  unfold readArchElem stitched
  rw [hm]
  simp only [hr, Option.map_some]

/-- **Stitching twice** reads, for an element that lived in the first vectors of the
file, the value of the architectural element that was stitched over it. -/
theorem readArchElem_stitchMap {m : UnifiedRenameMap} (hm : m.vecMode = .Elem)
    (h : ∀ i < p.numArchRegs .VecElemClass, (m.map .VecElemClass i).isSome = true)
    (rf : VectorRegFile) {v e : ℕ} (hv : v < p.numArchRegs .VecRegClass) {r : PhysReg}
    (hr : m.map .VecElemClass (p.NumVecElemPerVecReg * v + e) = some r) :
    readArchElem p ⟨stitchMap p m.map, .Full⟩ (stitchFile p m.map (stitchFile p m.map rf)) v e =
      if r.index p < p.numArchRegs .VecRegClass then
        readArchElem p m rf (r.index p) (r.elemIndex p)
      else readArchElem p m rf v e := by
  have hindex : (PhysReg.mk .VecRegClass v).index p = v := rfl
  have helem : r.elemIndex p < p.NumVecElemPerVecReg := Nat.mod_lt _ p.elems_pos
  have hread : readArchElem p ⟨stitchMap p m.map, .Full⟩
      (stitchFile p m.map (stitchFile p m.map rf)) v e =
        some (stitchFile p m.map rf (r.index p) (r.elemIndex p)) := by
    unfold readArchElem
    simp only
    rw [stitchMap_vec hv, Option.map_some, hindex]
    show some (if _ then stitched p m.map (stitchFile p m.map rf) v e else _) = _
    rw [if_pos hv]
    unfold stitched
    rw [hr]
  rw [hread]
  unfold stitchFile
  split_ifs with hfirst
  · exact some_stitched hm h rf hfirst helem
  · unfold readArchElem
    rw [hm]
    simp only [hr, Option.map_some]

/-- Splitting places every element. -/
theorem placements_split {s : CPU 1} {tid : Fin 1} (h : Settled p s tid)
    (hfull : s.vecMode = .Full) (sb : Scoreboard) :
    placements p (s.split p tid sb) tid = (getRegIds p .VecElemClass : Multiset PhysReg) := by
  have honce := h.once
  rw [placements_single, hfull] at honce
  rw [placements_single]
  simp only [CPU.split, VecRegRenameMode.vecClass, Function.update_self] at honce ⊢
  rw [Function.update_of_ne (by decide), Function.update_self,
    mapped_split fun i hi => splitMap_elem hi, getRegIds_vecElem, ← honce, Multiset.add_bind,
    ← Multiset.coe_bind]

/-- Stitching places every vector. -/
theorem placements_stitch {s : CPU 1} {tid : Fin 1} (h : Settled p s tid)
    (helem : s.vecMode = .Elem) (sb : Scoreboard) :
    placements p (s.stitch p tid sb) tid = (getRegIds p .VecRegClass : Multiset PhysReg) := by
  have hmapped : mapped p .VecRegClass (stitchMap p (s.renameMap tid).map) =
      ((getRegIds p .VecRegClass).take (p.numArchRegs .VecRegClass) : List PhysReg) := by
    unfold mapped getRegIds
    rw [valuesBelow_congr fun i hi => stitchMap_vec hi, valuesBelow_some, ← List.map_take,
      List.take_range]
    rw [Nat.min_eq_left (show _ ≤ p.numPhysRegs .VecRegClass from h.vecs_le helem)]
  rw [placements_single]
  simp only [CPU.stitch, VecRegRenameMode.vecClass, Function.update_self]
  rw [Function.update_of_ne (by decide), Function.update_self, hmapped, add_comm,
    Multiset.coe_add, List.take_append_drop]

/-! ## The switch -/

theorem Settled.preserved_same {s : CPU n} {tid : Fin n} (h : Settled p s tid) :
    Preserved p s s tid where
  values := fun _ _ _ _ _ => rfl
  commitValues := fun _ _ _ _ => rfl
  maps_eq := h.maps_eq
  free := mem_free_iff h.once

/-- Splitting the vectors of a single thread preserves everything. -/
theorem Settled.preserved_split {s : CPU 1} {tid : Fin 1} (h : Settled p s tid)
    (hfull : s.vecMode = .Full) (sb : Scoreboard) : Preserved p s (s.split p tid sb) tid := by
  have hregs := fun i => h.exists_reg tid (i := i)
  have hmode := h.mode tid
  rw [hfull] at hregs hmode
  have hvalues : ∀ v < p.numArchRegs .VecRegClass, ∀ e < p.NumVecElemPerVecReg,
      readArchElem p ⟨splitMap p (s.renameMap tid).map, .Elem⟩ s.vectorRegFile v e =
        readArchElem p (s.renameMap tid) s.vectorRegFile v e := fun v hv e he =>
    readArchElem_splitMap hmode hregs _ hv he
  refine ⟨fun t v hv e he => ?_, fun v hv e he => ?_, ?_, mem_free_iff ?_⟩
  · rw [Subsingleton.elim t tid]
    simp only [CPU.split, Function.update_self]
    exact hvalues v hv e he
  · rw [h.maps_eq]
    simp only [CPU.split, Function.update_self]
    exact hvalues v hv e he
  · simp only [CPU.split, Function.update_self]
  · exact placements_split h hfull sb

/-- Stitching the elements of a single thread preserves everything exactly when the
state is stable under stitching. -/
theorem Settled.preserved_stitch_iff {s : CPU 1} {tid : Fin 1} (h : Settled p s tid)
    (helem : s.vecMode = .Elem) (sb : Scoreboard) :
    Preserved p s (s.stitch p tid sb) tid ↔ StableUnderStitching p s tid := by
  have htotal := h.total tid
  have hmode := h.mode tid
  rw [helem] at htotal hmode
  constructor
  · intro hp v hv e he r hr hfirst
    have hvalue := hp.values tid v hv e he
    simp only [CPU.stitch, Function.update_self] at hvalue
    rw [readArchElem_stitchMap hmode htotal _ hv hr, if_pos hfirst] at hvalue
    exact hvalue
  · intro hstable
    have hvalues : ∀ v < p.numArchRegs .VecRegClass, ∀ e < p.NumVecElemPerVecReg,
        readArchElem p ⟨stitchMap p (s.renameMap tid).map, .Full⟩
            (stitchFile p (s.renameMap tid).map
              (stitchFile p (s.renameMap tid).map s.vectorRegFile)) v e =
          readArchElem p (s.renameMap tid) s.vectorRegFile v e := by
      intro v hv e he
      obtain ⟨r, hr⟩ := Option.isSome_iff_exists.mp (htotal _ (elem_lt hv he))
      rw [readArchElem_stitchMap hmode htotal _ hv hr]
      split_ifs with hfirst
      · exact hstable v hv e he r hr hfirst
      · rfl
    refine ⟨fun t v hv e he => ?_, fun v hv e he => ?_, ?_, mem_free_iff ?_⟩
    · rw [Subsingleton.elim t tid]
      simp only [CPU.stitch, Function.update_self]
      exact hvalues v hv e he
    · rw [h.maps_eq]
      simp only [CPU.stitch, Function.update_self]
      exact hvalues v hv e he
    · simp only [CPU.stitch, Function.update_self]
    · exact placements_stitch h helem sb

/-- A switch that changes the mode passes the count of the free list for a single
thread only. -/
theorem Settled.single {s s' : CPU n} {tid : Fin n} {mode : VecRegRenameMode}
    (h : Settled p s tid) (hne : mode ≠ s.vecMode)
    (hs : switchRenameMode p s tid mode = .ok s') : n = 1 := by
  obtain ⟨map, commitMap, fl, rf, rf', sb, hmap, -, hfl, -, -⟩ := switchRenameMode_ok hne hs
  refine h.length_eq_iff.mp ?_
  have hmode := h.mode tid
  cases mode with
  | Elem =>
    have hfull : s.vecMode = .Full := by
      cases hm : s.vecMode with
      | Full => rfl
      | Elem => exact absurd hm.symm hne
    rw [hfull] at hmode ⊢
    obtain rfl := switchMode_elem_ok hmode hmap
    exact (switchFreeList_elem_ok rfl hfl).1
  | Full =>
    have helem : s.vecMode = .Elem := by
      cases hm : s.vecMode with
      | Elem => rfl
      | Full => exact absurd hm.symm hne
    rw [helem] at hmode ⊢
    obtain rfl := switchMode_full_ok hmode hmap
    exact (switchFreeList_full_ok rfl hfl).1

/-- **When switching the vector interface preserves the registers.**  From a settled
state the switch succeeds and keeps every value, equal maps and an exact free list if
and only if the mode does not change, or there is one thread and, when elements are
stitched, the state is stable under stitching. -/
theorem switchRenameMode_preserves_iff (p : RegFileParams) (n : ℕ) (s : CPU n) (tid : Fin n)
    (mode : VecRegRenameMode) (h : Settled p s tid) :
    (∃ s', switchRenameMode p s tid mode = .ok s' ∧ Preserved p s s' tid) ↔
      mode = s.vecMode ∨ n = 1 ∧ (mode = .Full → StableUnderStitching p s tid) := by
  by_cases hne : mode = s.vecMode
  · rw [hne, switchRenameMode_same]
    exact ⟨fun _ => Or.inl rfl, fun _ => ⟨s, rfl, h.preserved_same⟩⟩
  rw [or_iff_right hne]
  constructor
  · rintro ⟨s', hs, hp⟩
    have hn := h.single hne hs
    subst hn
    refine ⟨rfl, fun hfull => ?_⟩
    subst hfull
    have helem : s.vecMode = .Elem := by
      cases hm : s.vecMode with
      | Elem => rfl
      | Full => exact absurd hm.symm hne
    obtain ⟨sb, hsb⟩ := h.switch_full helem rfl
    rw [hsb] at hs
    cases hs
    exact (h.preserved_stitch_iff helem sb).mp hp
  · rintro ⟨hn, hstable⟩
    subst hn
    cases mode with
    | Elem =>
        have hfull : s.vecMode = .Full := by
          cases hm : s.vecMode with
          | Full => rfl
          | Elem => exact absurd hm.symm hne
        obtain ⟨sb, hsb⟩ := h.switch_elem hfull rfl
        exact ⟨_, hsb, h.preserved_split hfull sb⟩
    | Full =>
        have helem : s.vecMode = .Elem := by
          cases hm : s.vecMode with
          | Elem => rfl
          | Full => exact absurd hm.symm hne
        obtain ⟨sb, hsb⟩ := h.switch_full helem rfl
        exact ⟨_, hsb, (h.preserved_stitch_iff helem sb).mpr (hstable rfl)⟩

theorem settled_bound_smallFull : Settled smallFull (bound smallFull 1 1) 0 where
  maps_eq := rfl
  mode := fun _ => rfl
  total := by decide
  once := by
    rw [placements_single]
    decide
  idle := rfl

theorem switchRenameMode_preserves_smallFull :
    ∃ s', switchRenameMode smallFull (bound smallFull 1 1) 0 .Elem = .ok s' ∧
      Preserved smallFull (bound smallFull 1 1) s' 0 :=
  (switchRenameMode_preserves_iff smallFull 1 _ 0 .Elem settled_bound_smallFull).mpr
    (Or.inr ⟨rfl, nofun⟩)

/-- The core `smallFull` when it starts by renaming elements. -/
def smallElem : RegFileParams := { smallFull with initVecRegRenameMode := .Elem }

/-- One vector of two elements, each mapped to the place of the other. -/
def swappedMap : UnifiedRenameMap where
  map := fun c i =>
    if c = .VecElemClass then if i < 2 then some ⟨.VecElemClass, 1 - i⟩ else none
    else initMap smallElem 0 c i
  vecMode := .Elem

/-- The elements hold 9 and 7; renaming each of them twice leads to such a state. -/
def swapped : CPU 1 :=
  { bound smallElem 1 1 with
    renameMap := fun _ => swappedMap
    commitRenameMap := fun _ => swappedMap
    vectorRegFile := fun v e => if v = 0 then if e = 0 then 7 else 9 else 0 }

/-- **Stitching twice loses values.**  With the two elements of a vector swapped in
the file, the second stitching reads what the first one wrote. -/
theorem switch_loses_swapped :
    ¬ ∀ (p : RegFileParams) (n : ℕ) (s : CPU n) (tid : Fin n) (mode : VecRegRenameMode),
      Settled p s tid → ∃ s', switchRenameMode p s tid mode = .ok s' ∧ Preserved p s s' tid := by
  intro h
  have hsettled : Settled smallElem swapped 0 := by
    refine ⟨rfl, fun _ => rfl, by decide, ?_, rfl⟩
    rw [placements_single]
    decide
  obtain ⟨s', hs, hp⟩ := h smallElem 1 swapped 0 .Full hsettled
  obtain ⟨sb, hsb⟩ := hsettled.switch_full rfl rfl
  rw [hsb] at hs
  cases hs
  have hstable := (hsettled.preserved_stitch_iff rfl sb).mp hp
  have hvalue := hstable 0 (by decide) 0 (by decide) ⟨.VecElemClass, 1⟩ (by decide) (by decide)
  revert hvalue
  decide

end Gem5.O3
