/-
# What each register action does

One specification for each function of `RenameMap.lean` and `RenameHistory.lean`:
what a successful call did to the maps, the free lists and the history.  The
results on conservation, rollback and the zero register use these and never
unfold the functions again.
-/
import Gem5.RenameHistory

namespace Gem5.O3

open Runs

variable {n : ℕ} {p : RegFileParams}

/-! ## Single registers -/

/-- What renaming one register does to the map and the free list of its class:
either the mapping is kept, or the front of the free list replaces it. -/
inductive Renaming (a : RegId) (i : ℕ) (m : ArchMap) (fl : FreeList) :
    PhysReg → PhysReg → ArchMap → FreeList → Prop
  | kept (r : PhysReg) (h : a.regClass ≠ .MiscRegClass → m a.regClass i = some r) :
      Renaming a i m fl r r m fl
  | allocated (new prev : PhysReg) (rest : List PhysReg) (hc : a.regClass ≠ .MiscRegClass)
      (hm : m a.regClass i = some prev) (hfl : fl a.regClass = new :: rest) :
      Renaming a i m fl new prev (m.set a.regClass i new) (Function.update fl a.regClass rest)

variable {a : RegId} {fl : FreeList} {m m' : UnifiedRenameMap} {s s' : CPU n} {seq : InstSeqNum}
  {tid : Fin n} {rf rf' : VectorRegFile}

/-- Renaming through the map of one class; a zero register keeps its mapping. -/
theorem simpleRename_ok {m : ArchMap} {pins : PhysReg → Pins} {r : RenameResult}
    (hc : a.regClass ≠ .MiscRegClass) (h : SimpleRenameMap.rename p a m fl pins = .ok r) :
    Renaming a (a.flatIndex p) m fl r.first r.second r.map r.freeList ∧
      (a.isZeroReg p = true → r.first = r.second ∧ r.map = m) := by
  unfold SimpleRenameMap.rename at h
  split at h
  · cases h
  · next prev hprev =>
      split_ifs at h with hzero hidx hpin hpin'
      · cases h
        exact ⟨.kept prev fun _ => hprev, fun _ => ⟨rfl, rfl⟩⟩
      · cases h
        exact ⟨.kept prev fun _ => hprev, fun _ => ⟨rfl, rfl⟩⟩
      · split at h
        · cases h
        · next new rest hfl =>
            cases h
            exact ⟨.allocated new prev rest hc hprev hfl, fun hz => absurd hz hzero⟩

/-- Looking up a misc register gives the register of its own index. -/
theorem lookup_misc {r : PhysReg} (hc : a.regClass = .MiscRegClass) (h : m.lookup p a = .ok r) :
    r = ⟨.MiscRegClass, a.flatIndex p⟩ := by
  unfold UnifiedRenameMap.lookup at h
  rw [if_pos hc] at h
  unfold getMiscRegId at h
  split_ifs at h
  cases h
  rfl

/-- Renaming one register of any class. -/
theorem rename_ok {pins : PhysReg → Pins} {r : RenameResult} (h : m.rename p a fl pins = .ok r) :
    Renaming a (a.flatIndex p) m.map fl r.first r.second r.map r.freeList ∧
      (a.regClass = .MiscRegClass → r.first = ⟨.MiscRegClass, a.flatIndex p⟩) ∧
      (a.regClass ≠ .MiscRegClass → vecModeOk a.regClass m.vecMode = true) ∧
      (a.isZeroReg p = true → r.first = r.second ∧ r.map = m.map) := by
  unfold UnifiedRenameMap.rename at h
  by_cases hc : a.regClass = .MiscRegClass
  · rw [if_pos hc] at h
    split at h
    · cases h
    · next phys hlook =>
        cases h
        exact ⟨.kept phys fun hne => absurd hc hne, fun _ => lookup_misc hc hlook,
          fun hne => absurd hc hne, fun _ => ⟨rfl, rfl⟩⟩
  · rw [if_neg hc] at h
    split_ifs at h with hmode
    obtain ⟨hren, hzero⟩ := simpleRename_ok hc h
    exact ⟨hren, fun hm => absurd hm hc, fun _ => hmode, hzero⟩

/-- What a successful `setEntry` does: nothing for a misc register, else one write
inside the map. -/
theorem setEntry_ok {r : PhysReg} (h : m.setEntry p a r = .ok m') :
    r.regClass = a.regClass ∧ m'.vecMode = m.vecMode ∧
      ((a.regClass = .MiscRegClass ∧ r = ⟨.MiscRegClass, a.flatIndex p⟩ ∧ m'.map = m.map) ∨
        (a.regClass ≠ .MiscRegClass ∧ a.flatIndex p < p.numArchRegs a.regClass ∧
          vecModeOk a.regClass m.vecMode = true ∧
          m'.map = m.map.set a.regClass (a.flatIndex p) r)) := by
  unfold UnifiedRenameMap.setEntry at h
  by_cases hcls : r.regClass ≠ a.regClass
  · rw [if_pos hcls] at h
    cases h
  · rw [if_neg hcls] at h
    push Not at hcls
    by_cases hc : a.regClass = .MiscRegClass
    · rw [if_pos hc] at h
      split at h
      · cases h
      · next phys hlook =>
          split_ifs at h with heq
          cases h
          exact ⟨hcls, rfl, .inl ⟨hc, heq.trans (lookup_misc hc hlook), rfl⟩⟩
    · rw [if_neg hc] at h
      split_ifs at h with hmode hlt
      cases h
      exact ⟨hcls, rfl, .inr ⟨hc, hlt, hmode, rfl⟩⟩

theorem addReg_ok {fl' : FreeList} {r : PhysReg} (h : fl.addReg r = .ok fl') :
    r.regClass ≠ .MiscRegClass ∧
      fl' = Function.update fl r.regClass (fl r.regClass ++ [r]) := by
  unfold FreeList.addReg at h
  split_ifs at h with hc
  cases h
  exact ⟨hc, rfl⟩

/-! ## Renaming an instruction -/

/-- What renaming one destination does to the state. -/
theorem renameDestReg_ok {new : PhysReg} (h : renameDestReg p s tid seq a = .ok (s', new)) :
    ∃ prev map fl pins sb,
      Renaming a (a.flatIndex p) (s.renameMap tid).map s.freeList new prev map fl ∧
      (a.regClass = .MiscRegClass → new = ⟨.MiscRegClass, a.flatIndex p⟩) ∧
      (a.regClass ≠ .MiscRegClass → vecModeOk a.regClass (s.renameMap tid).vecMode = true) ∧
      (a.isZeroReg p = true → new = prev ∧ map = (s.renameMap tid).map) ∧
      s.scoreboard.unsetReg p new = .ok sb ∧
      s' = { s with
        freeList := fl
        pins := pins
        renameMap := Function.update s.renameMap tid { s.renameMap tid with map := map }
        scoreboard := sb
        historyBuffer := Function.update s.historyBuffer tid
          (⟨seq, a, new, prev⟩ :: s.historyBuffer tid) } := by
  unfold renameDestReg at h
  obtain ⟨r, hr, h⟩ := bind_eq_ok.mp h
  obtain ⟨sb, hsb, h⟩ := bind_eq_ok.mp h
  cases h
  obtain ⟨hren, hmisc, hmode, hzero⟩ := rename_ok hr
  exact ⟨r.second, r.map, r.freeList, r.pins, sb, hren, hmisc, hmode, hzero, hsb, rfl⟩

/-- **The loop rule for renaming.**  What one destination preserves, all of them
preserve. -/
theorem renameLoop_invariant {P : CPU n → Prop}
    (hstep : ∀ s s' a new, P s → renameDestReg p s tid seq a = .ok (s', new) → P s')
    {rs : List RegId} {dests : List (RegId × PhysReg)} (hs : P s)
    (h : renameLoop p tid seq s rs = .ok (s', dests)) : P s' := by
  induction rs generalizing s dests with
  | nil => cases h; exact hs
  | cons a rs ih =>
    rw [renameLoop] at h
    obtain ⟨⟨t, new⟩, ht, h⟩ := bind_eq_ok.mp h
    obtain ⟨⟨u, rest⟩, hu, h⟩ := bind_eq_ok.mp h
    cases h
    exact ih (hstep s t a new hs ht) hu

/-- `renameDestRegs` is the loop, with the instruction added to those in flight. -/
theorem renameDestRegs_ok {inst : DynInst} {flat : Flattening}
    (h : renameDestRegs p s tid inst flat = .ok s') :
    ∃ t dests, renameLoop p tid inst.seqNum s (inst.destRegs.map flat.dest) = .ok (t, dests) ∧
      s' = { t with
        instList := Function.update t.instList tid (t.instList tid ++ [⟨inst.seqNum, dests⟩]) } := by
  unfold renameDestRegs at h
  obtain ⟨⟨t, dests⟩, ht, h⟩ := bind_eq_ok.mp h
  cases h
  exact ⟨t, dests, ht, rfl⟩

/-! ## Squash and commit -/

/-- Undo one entry in a map. -/
def undo (p : RegFileParams) (m : ArchMap) (e : RenameHistory) : ArchMap :=
  if e.changed then m.set e.archReg.regClass (e.archReg.flatIndex p) e.prevPhysReg else m

/-- What undoing one entry does to the state. -/
theorem undoEntry_ok {e : RenameHistory}
    (hmisc : e.changed = true → e.archReg.regClass ≠ .MiscRegClass)
    (h : undoEntry p s tid e = .ok s') :
    (e.changed = true → e.archReg.flatIndex p < p.numArchRegs e.archReg.regClass) ∧
    s' = { s with
      freeList := if e.changed then Function.update s.freeList e.newPhysReg.regClass
        (s.freeList e.newPhysReg.regClass ++ [e.newPhysReg]) else s.freeList
      renameMap := Function.update s.renameMap tid
        { s.renameMap tid with map := undo p (s.renameMap tid).map e } } := by
  unfold undoEntry at h
  unfold undo
  by_cases hch : e.changed = true
  · rw [if_pos hch] at h
    obtain ⟨map, hmap, h⟩ := bind_eq_ok.mp h
    obtain ⟨fl, hfl, h⟩ := bind_eq_ok.mp h
    cases h
    obtain ⟨-, hmode, hset⟩ := setEntry_ok hmap
    rcases hset with ⟨hc, -, -⟩ | ⟨-, hlt, -, hset⟩
    · exact absurd hc (hmisc hch)
    · refine ⟨fun _ => hlt, ?_⟩
      have hmapeq : map = ⟨(s.renameMap tid).map.set e.archReg.regClass (e.archReg.flatIndex p)
          e.prevPhysReg, (s.renameMap tid).vecMode⟩ := by
        rw [← hset, ← hmode]
      rw [(addReg_ok hfl).2, hmapeq, if_pos hch, if_pos hch]
  · rw [if_neg hch] at h
    cases h
    refine ⟨fun hc => absurd hc hch, ?_⟩
    rw [if_neg hch, if_neg hch, Function.update_eq_self]

/-- Without a change of the mode nothing happens. -/
theorem switchRenameMode_same :
    switchRenameMode p s tid s.vecMode = .ok s := by
  unfold switchRenameMode
  rw [if_pos rfl]

/-- What a change of the vector interface does to the state. -/
theorem switchRenameMode_ok {mode : VecRegRenameMode} (hne : mode ≠ s.vecMode)
    (h : switchRenameMode p s tid mode = .ok s') :
    ∃ map commitMap fl rf rf' sb,
      (s.renameMap tid).switchMode p mode s.vectorRegFile = .ok (map, rf) ∧
      (s.commitRenameMap tid).switchMode p mode rf = .ok (commitMap, rf') ∧
      map.switchFreeList p s.freeList = .ok fl ∧
      (∃ regs, setRegs p s.scoreboard regs = .ok sb) ∧
      s' = { s with
        vecMode := mode
        renameMap := Function.update s.renameMap tid map
        commitRenameMap := Function.update s.commitRenameMap tid commitMap
        freeList := fl
        vectorRegFile := rf'
        scoreboard := sb } := by
  unfold switchRenameMode at h
  rw [if_neg hne] at h
  obtain ⟨⟨map, rf⟩, hmap, h⟩ := bind_eq_ok.mp h
  obtain ⟨⟨commitMap, rf'⟩, hcommit, h⟩ := bind_eq_ok.mp h
  obtain ⟨fl, hfl, h⟩ := bind_eq_ok.mp h
  unfold setVectorsAsReady at h
  obtain ⟨regs, -, h⟩ := bind_eq_ok.mp h
  obtain ⟨sb, hsb, h⟩ := bind_eq_ok.mp h
  cases h
  exact ⟨map, commitMap, fl, rf, rf', sb, hmap, hcommit, hfl, ⟨regs, hsb⟩, rfl⟩

/-- A switch of the mode leaves the maps outside the two vector interfaces alone. -/
theorem switchMode_of_ne {mode : VecRegRenameMode} (h : m.switchMode p mode rf = .ok (m', rf'))
    {c : RegClass} (hv : c ≠ .VecRegClass) (he : c ≠ .VecElemClass) : m'.map c = m.map c := by
  unfold UnifiedRenameMap.switchMode at h
  split_ifs at h
  · split at h
    · cases h
    · cases h
      exact Function.update_of_ne he _ _
  · cases h
    exact Function.update_of_ne hv _ _
  · cases h
    rfl

/-- The map after the vectors were split into elements. -/
def splitMap (p : RegFileParams) (m : ArchMap) : ArchMap :=
  Function.update m .VecElemClass fun i =>
    if i < p.numArchRegs .VecElemClass then splitEntry p m i else m .VecElemClass i

/-- The map after the elements were stitched into the first vectors. -/
def stitchMap (p : RegFileParams) (m : ArchMap) : ArchMap :=
  Function.update m .VecRegClass fun i =>
    if i < p.numArchRegs .VecRegClass then some ⟨.VecRegClass, i⟩ else m .VecRegClass i

theorem switchMode_elem_ok (hm : m.vecMode = .Full) (h : m.switchMode p .Elem rf = .ok (m', rf')) :
    m' = ⟨splitMap p m.map, .Elem⟩ := by
  unfold UnifiedRenameMap.switchMode at h
  rw [if_pos ⟨rfl, hm⟩] at h
  split at h
  · cases h
  · cases h
    rfl

theorem switchMode_full_ok (hm : m.vecMode = .Elem) (h : m.switchMode p .Full rf = .ok (m', rf')) :
    m' = ⟨stitchMap p m.map, .Full⟩ := by
  unfold UnifiedRenameMap.switchMode at h
  rw [if_neg (by rintro ⟨h1, -⟩; cases h1), if_pos ⟨rfl, hm⟩] at h
  split_ifs at h
  cases h
  rfl

theorem switchFreeList_elem_ok {fl' : FreeList} (hm : m.vecMode = .Elem)
    (h : m.switchFreeList p fl = .ok fl') :
    (fl .VecRegClass).length = p.numPhysVecRegs - p.numArchRegs .VecRegClass ∧
      fl' = Function.update (Function.update fl .VecElemClass
        ((fl .VecRegClass).flatMap (getRegElemIds p))) .VecRegClass [] := by
  unfold UnifiedRenameMap.switchFreeList at h
  rw [hm] at h
  simp only at h
  split_ifs at h with h1 h2
  cases h
  exact ⟨not_not.mp h2, rfl⟩

theorem switchFreeList_full_ok {fl' : FreeList} (hm : m.vecMode = .Full)
    (h : m.switchFreeList p fl = .ok fl') :
    (fl .VecElemClass).length = p.numPhysRegs .VecElemClass - p.numArchRegs .VecElemClass ∧
      fl' = Function.update (Function.update fl .VecRegClass
        ((getRegIds p .VecRegClass).drop (p.numArchRegs .VecRegClass))) .VecElemClass [] := by
  unfold UnifiedRenameMap.switchFreeList at h
  rw [hm] at h
  simp only at h
  split_ifs at h with h1 h2
  cases h
  exact ⟨not_not.mp h2, rfl⟩

/-- `removeFromHistory` changes the free lists and one buffer. -/
theorem removeFromHistory_ok (h : removeFromHistory s seq tid = .ok s') :
    ∃ fl rest, commitLoop seq s.freeList (s.historyBuffer tid).reverse = .ok (fl, rest) ∧
      s' = { s with
        freeList := fl
        historyBuffer := Function.update s.historyBuffer tid rest.reverse } := by
  unfold removeFromHistory at h
  obtain ⟨⟨fl, rest⟩, hloop, h⟩ := bind_eq_ok.mp h
  cases h
  exact ⟨fl, rest, hloop, rfl⟩

/-- `commitHead` changes the commit map and the instructions in flight only. -/
theorem commitHead_ok (h : commitHead p s tid = .ok s') :
    (s.instList tid = [] ∧ s' = s) ∨
      ∃ head rest map, s.instList tid = head :: rest ∧
        setEntries p (s.commitRenameMap tid) head.dests = .ok map ∧
        s' = { s with
          commitRenameMap := Function.update s.commitRenameMap tid map
          instList := Function.update s.instList tid rest } := by
  unfold commitHead at h
  split at h
  · next hnil =>
      cases h
      exact .inl ⟨hnil, rfl⟩
  · next head rest hcons =>
      obtain ⟨map, hmap, h⟩ := bind_eq_ok.mp h
      cases h
      exact .inr ⟨head, rest, map, hcons, hmap, rfl⟩

end Gem5.O3
