/-
# The flags of a target list

`TargetList::add` keeps the flags of a list up to date one target at a time, and `populateFlags`
works them out again from the targets (`mem/cache/mshr.cc`).  Both go through `updateFlags`, which
asks whether the list is empty: that tells the first write for `add`, and nothing for
`populateFlags`, whose list holds all targets from the start.
-/
import Gem5.Mshr

namespace Gem5.Mem.TargetList

/-! ## Runs of `add` -/

/-- The `add` that appends a target. -/
def addTarget (l : TargetList) (t : Target) : TargetList :=
  l.add t.pkt t.readyTime t.order t.source t.markedPending t.allocOnFill

/-- A sequence of `add` calls. -/
def addAll (l : TargetList) (calls : List Target) : TargetList := calls.foldl addTarget l

/-- The flags of a list after `updateFlags` with one target. -/
def updateWith (l : TargetList) (t : Target) : TargetList :=
  l.updateFlags t.pkt t.source t.allocOnFill

/-- A request that a cache above has sent and that writes with a flag against merging. -/
def SpecialWrite (t : Target) : Prop :=
  t.source = .FromCPU ∧ t.pkt.cmd.isWrite = true ∧ t.pkt.noMerge = true

/-- **The first target is a special write of at least one byte of the block.** -/
def SpecialFirst (blkSize : ℕ) : List Target → Prop
  | [] => False
  | t :: _ => SpecialWrite t ∧ 0 < t.pkt.size ∧ 0 < blkSize

/-! ## What the flags depend on -/

/-- A list with other targets and the same flags. -/
def withTargets (l : TargetList) (ts : List Target) : TargetList := { l with targets := ts }

@[simp] theorem withTargets_targets (l : TargetList) (ts : List Target) :
    (l.withTargets ts).targets = ts := rfl

@[simp] theorem withTargets_withTargets (l : TargetList) (ts us : List Target) :
    (l.withTargets ts).withTargets us = l.withTargets us := rfl

@[simp] theorem withTargets_self (l : TargetList) : l.withTargets l.targets = l := rfl

@[simp] theorem resetFlags_withTargets (l : TargetList) (ts : List Target) :
    (l.withTargets ts).resetFlags = l.resetFlags.withTargets ts := rfl

@[simp] theorem updateWith_targets (l : TargetList) (t : Target) :
    (l.updateWith t).targets = l.targets := by
  unfold updateWith updateFlags updateRequestFlags
  split_ifs <;> simp

@[simp] theorem withTargets_isWholeLineWrite (l : TargetList) (ts : List Target) :
    (l.withTargets ts).isWholeLineWrite = l.isWholeLineWrite := rfl

@[simp] theorem withTargets_canMergeWrites (l : TargetList) (ts : List Target) :
    (l.withTargets ts).canMergeWrites = l.canMergeWrites := rfl

@[simp] theorem withTargets_markWritten (l : TargetList) (ts : List Target) (pkt : MissPacket) :
    (l.withTargets ts).markWritten pkt = (l.markWritten pkt).withTargets ts := rfl

theorem markWritten_none {l : TargetList} {pkt : MissPacket}
    (h : pkt.size = 0 ∨ l.writesBitmap = []) : l.markWritten pkt = l := by
  have hmap : (l.markWritten pkt).writesBitmap = l.writesBitmap := by
    unfold markWritten
    rcases h with h | h
    · apply List.ext_getElem (by simp)
      intro i _ _
      simp [h]
    · simp [h]
  calc l.markWritten pkt = { l with writesBitmap := (l.markWritten pkt).writesBitmap } := rfl
    _ = l := by rw [hmap]

/-- The targets of the list come in only by the question whether there are any, and that matters
only for a special write that marks some byte. -/
theorem updateWriteFlags_withTargets (l : TargetList) (pkt : MissPacket) {ts : List Target}
    (h : ts.isEmpty = l.targets.isEmpty ∨ ¬ (pkt.cmd.isWrite = true ∧ pkt.noMerge = true) ∨
      pkt.size = 0 ∨ l.writesBitmap = []) :
    (l.withTargets ts).updateWriteFlags pkt = (l.updateWriteFlags pkt).withTargets ts := by
  unfold updateWriteFlags
  by_cases hline : l.isWholeLineWrite = true
  · simp [hline]
  by_cases hmerge : l.canMergeWrites = true
  · by_cases hw : pkt.cmd.isWrite = true
    · have hsame : (ts.isEmpty || !pkt.noMerge) = (l.targets.isEmpty || !pkt.noMerge) ∨
          l.markWritten pkt = l := by
        rcases h with h | h | h
        · exact .inl (by rw [h])
        · have hno : pkt.noMerge = false := by simpa [hw] using h
          exact .inl (by simp [hno])
        · exact .inr (markWritten_none h)
      simp only [withTargets_isWholeLineWrite, hline, withTargets_canMergeWrites, hmerge, hw,
        withTargets_targets, withTargets_markWritten]
      rcases hsame with hsame | hsame
      · cases hmark : (l.targets.isEmpty || !pkt.noMerge) with
        | true =>
          simp only [hsame.trans hmark]
          rfl
        | false =>
          simp only [hsame.trans hmark]
          rfl
      · simp only [hsame, ite_self]
        rfl
    · simp only [withTargets_isWholeLineWrite, hline, withTargets_canMergeWrites, hmerge, hw]
      rfl
  · simp [hline, hmerge]

/-- The flags that a request from a cache above sets before its write is looked at. -/
def requested (l : TargetList) (t : Target) : TargetList :=
  { l with
    needsWritable := l.needsWritable || t.pkt.needsWritable
    hasUpgrade := l.hasUpgrade || (t.pkt.cmd.isUpgrade || t.pkt.cmd = .StoreCondReq)
    allocOnFill := l.allocOnFill || t.allocOnFill
    hasFromCache := l.hasFromCache || t.pkt.cmd.fromCache }

theorem updateWith_cpu (l : TargetList) {t : Target} (h : t.source = .FromCPU) :
    l.updateWith t = (l.requested t).updateWriteFlags t.pkt := by
  simp only [updateWith, updateFlags, updateRequestFlags, h]
  rfl

/-- A target that is not a request from a cache above does not look at the targets. -/
theorem updateWith_other (l : TargetList) {t : Target} (h : t.source ≠ .FromCPU)
    (ts : List Target) : (l.withTargets ts).updateWith t = (l.updateWith t).withTargets ts := by
  unfold updateWith updateFlags updateRequestFlags
  cases hs : t.source with
  | FromCPU => exact absurd hs h
  | FromSnoop => rfl
  | FromPrefetcher => rfl

theorem updateWith_withTargets (l : TargetList) (t : Target) {ts : List Target}
    (h : ts.isEmpty = l.targets.isEmpty ∨ ¬ SpecialWrite t ∨
      t.pkt.size = 0 ∨ l.writesBitmap = []) :
    (l.withTargets ts).updateWith t = (l.updateWith t).withTargets ts := by
  by_cases hcpu : t.source = .FromCPU
  · rw [updateWith_cpu _ hcpu, updateWith_cpu _ hcpu]
    apply updateWriteFlags_withTargets (l.requested t)
    rcases h with h | h | h
    · exact .inl h
    · exact .inr (.inl fun hw => h ⟨hcpu, hw⟩)
    · exact .inr (.inr h)
  · exact updateWith_other l hcpu ts

/-! ## Both computations as folds of `updateFlags` -/

/-- The target as `add` stores it. -/
def stored (t : Target) : Target :=
  { t with markedPending := t.markedPending && t.pkt.fromMSHR }

theorem addTarget_eq (l : TargetList) (t : Target) :
    l.addTarget t = (l.updateWith t).withTargets (l.targets ++ [stored t]) := by
  rw [← updateWith_targets l t]
  rfl

@[simp] theorem addTarget_targets (l : TargetList) (t : Target) :
    (l.addTarget t).targets = l.targets ++ [stored t] := by
  rw [addTarget_eq, withTargets_targets]

theorem addAll_targets (l : TargetList) (calls : List Target) :
    (l.addAll calls).targets = l.targets ++ calls.map stored := by
  induction calls generalizing l with
  | nil => simp [addAll]
  | cons t calls ih =>
    change ((l.addTarget t).addAll calls).targets = _
    rw [ih, addTarget_targets]
    simp

/-- Once there is a target, `add` changes the flags as an update of any list with targets does. -/
theorem addAll_withTargets (calls : List Target) {l : TargetList} {us : List Target}
    (hl : l.targets ≠ []) (hus : us ≠ []) :
    (l.addAll calls).withTargets us = calls.foldl updateWith (l.withTargets us) := by
  induction calls generalizing l with
  | nil => rfl
  | cons t calls ih =>
    change ((l.addTarget t).addAll calls).withTargets us = _
    have hboth : us.isEmpty = l.targets.isEmpty := by
      rw [List.isEmpty_eq_false_iff.mpr hus, List.isEmpty_eq_false_iff.mpr hl]
    rw [ih (by simp), List.foldl_cons, addTarget_eq, withTargets_withTargets,
      updateWith_withTargets l t (.inl hboth)]

@[simp] theorem markWritten_resetFlags (l : TargetList) (pkt : MissPacket) :
    (l.markWritten pkt).resetFlags = l.resetFlags := by
  have hmap : (l.markWritten pkt).writesBitmap.map (fun _ => false)
      = l.writesBitmap.map fun _ => false := by
    simp only [List.map_const', markWritten, List.length_mapIdx]
  unfold resetFlags
  rw [hmap]
  rfl

@[simp] theorem updateWriteFlags_resetFlags (l : TargetList) (pkt : MissPacket) :
    (l.updateWriteFlags pkt).resetFlags = l.resetFlags := by
  unfold updateWriteFlags
  split_ifs
  · rfl
  · rfl
  · rfl
  · exact markWritten_resetFlags l pkt
  · rfl

@[simp] theorem updateWith_resetFlags (l : TargetList) (t : Target) :
    (l.updateWith t).resetFlags = l.resetFlags := by
  unfold updateWith updateFlags updateRequestFlags
  split_ifs
  · rfl
  · rfl
  · exact updateWriteFlags_resetFlags _ t.pkt

theorem addAll_resetFlags (l : TargetList) (calls : List Target) :
    (l.addAll calls).resetFlags = l.resetFlags.withTargets (l.addAll calls).targets := by
  induction calls generalizing l with
  | nil => rfl
  | cons t calls ih =>
    change ((l.addTarget t).addAll calls).resetFlags
      = l.resetFlags.withTargets ((l.addTarget t).addAll calls).targets
    rw [ih (l.addTarget t), addTarget_eq, resetFlags_withTargets, updateWith_resetFlags,
      withTargets_withTargets]

theorem init_resetFlags (l : TargetList) (blkSize : ℕ) :
    (l.init blkSize).resetFlags = l.init blkSize := by
  simp [init, resetFlags]

/-- `populateFlags` updates the flags of the whole list, from the flags of an initialised one. -/
theorem populateFlags_addAll (l : TargetList) (h : l.targets = []) (blkSize : ℕ)
    (calls : List Target) :
    ((l.init blkSize).addAll calls).populateFlags
      = calls.foldl updateWith ((l.init blkSize).withTargets (calls.map stored)) := by
  have htargets : ((l.init blkSize).addAll calls).targets = calls.map stored := by
    rw [addAll_targets]
    simp [init, resetFlags, h]
  unfold populateFlags
  rw [addAll_resetFlags, htargets, init_resetFlags, List.foldl_map]
  rfl

/-! ## The special write that comes first -/

/-- Once nothing more is merged, the bitmap stays as it is. -/
theorem updateWith_stuck {l : TargetList} (t : Target) (h : l.canMergeWrites = false) :
    (l.updateWith t).canMergeWrites = false ∧
      (l.updateWith t).writesBitmap = l.writesBitmap := by
  unfold updateWith updateFlags updateRequestFlags updateWriteFlags
  split_ifs <;> simp_all

theorem foldl_stuck (calls : List Target) {l : TargetList} (h : l.canMergeWrites = false) :
    (calls.foldl updateWith l).writesBitmap = l.writesBitmap := by
  induction calls generalizing l with
  | nil => rfl
  | cons t calls ih =>
    obtain ⟨hstuck, hbitmap⟩ := updateWith_stuck t h
    rw [List.foldl_cons, ih hstuck, hbitmap]

/-- A special write ends the merging, and is marked only in an empty list. -/
theorem updateWith_special {l : TargetList} {t : Target} (h : SpecialWrite t)
    (hline : l.isWholeLineWrite = false) (hmerge : l.canMergeWrites = true) :
    (l.updateWith t).canMergeWrites = false ∧
      (l.updateWith t).writesBitmap
        = if l.targets = [] then (l.markWritten t.pkt).writesBitmap else l.writesBitmap := by
  obtain ⟨hsource, hwrite, hnomerge⟩ := h
  rw [updateWith_cpu l hsource]
  have hline' : (l.requested t).isWholeLineWrite = false := hline
  have hmerge' : (l.requested t).canMergeWrites = true := hmerge
  have htargets : (l.requested t).targets = l.targets := rfl
  simp only [updateWriteFlags, hline', hmerge', hwrite, hnomerge, htargets]
  by_cases hempty : l.targets = []
  · simp only [hempty]
    exact ⟨rfl, rfl⟩
  · rw [if_neg hempty]
    simp [hempty, requested]

/-- The first byte of the packet is marked. -/
theorem markWritten_offset {l : TargetList} {pkt : MissPacket} (hsize : 0 < pkt.size)
    (hlen : l.writesBitmap.length = l.blkSize) (hblk : 0 < l.blkSize) :
    (l.markWritten pkt).writesBitmap[pkt.getOffset l.blkSize]? = some true := by
  have hoffset : pkt.getOffset l.blkSize < l.writesBitmap.length := by
    have hle : pkt.getOffset l.blkSize ≤ l.blkSize - 1 := Nat.and_le_right
    omega
  simp only [markWritten, List.getElem?_mapIdx, List.getElem?_eq_getElem hoffset]
  simp [hsize]

theorem init_whole {l : TargetList} {blkSize : ℕ} (h : 0 < blkSize) :
    (l.init blkSize).isWholeLineWrite = false := by
  simp only [init, resetFlags, isWholeLineWrite]
  obtain ⟨n, rfl⟩ : ∃ n, blkSize = n + 1 := ⟨blkSize - 1, by omega⟩
  simp [List.replicate_succ]

/-- **What `add` keeps is what `populateFlags` works out**, unless the first target is a special
write: `add` marks its bytes, and `populateFlags` does not. -/
theorem populateFlags_addAll_iff (l : TargetList) (h : l.targets = []) (blkSize : ℕ)
    (calls : List Target) :
    ((l.init blkSize).addAll calls).populateFlags = (l.init blkSize).addAll calls ↔
      ¬ SpecialFirst blkSize calls := by
  have hempty : (l.init blkSize).targets = [] := h
  rw [populateFlags_addAll l h]
  cases calls with
  | nil =>
    simp only [SpecialFirst, not_false_eq_true, iff_true]
    change (l.init blkSize).withTargets [] = l.init blkSize
    rw [← hempty, withTargets_self]
  | cons t calls =>
    set us := (t :: calls).map stored with hus
    have hadd : (l.init blkSize).addAll (t :: calls)
        = calls.foldl updateWith (((l.init blkSize).updateWith t).withTargets us) := by
      have htargets := addAll_targets (l.init blkSize) (t :: calls)
      rw [hempty, List.nil_append] at htargets
      rw [← withTargets_self ((l.init blkSize).addAll (t :: calls)), htargets]
      change (((l.init blkSize).addTarget t).addAll calls).withTargets us = _
      rw [addAll_withTargets calls (by simp) (by simp [hus]), addTarget_eq,
        withTargets_withTargets]
    rw [hadd, List.foldl_cons]
    constructor
    · -- The two bitmaps differ at the first byte that the special write covers.
      rintro heq ⟨hspecial, hsize, hblk⟩
      have hline := init_whole (l := l) hblk
      obtain ⟨hpop, hpopmap⟩ := updateWith_special (l := (l.init blkSize).withTargets us)
        hspecial hline rfl
      obtain ⟨hinc, hincmap⟩ := updateWith_special (l := l.init blkSize) hspecial hline rfl
      have hmaps := congrArg writesBitmap heq
      rw [foldl_stuck calls hpop, foldl_stuck calls (l := ((l.init blkSize).updateWith t).withTargets
        us) hinc, hpopmap, if_neg (by simp [hus])] at hmaps
      change _ = ((l.init blkSize).updateWith t).writesBitmap at hmaps
      rw [hincmap, if_pos hempty] at hmaps
      have hbyte := markWritten_offset (l := l.init blkSize) hsize (by simp [init, resetFlags]) hblk
      rw [← hmaps] at hbyte
      simp [init, resetFlags, withTargets, List.getElem?_replicate] at hbyte
    · intro hnot
      rw [updateWith_withTargets]
      right
      by_cases hspecial : SpecialWrite t
      · right
        by_cases hsize : t.pkt.size = 0
        · exact .inl hsize
        · right
          have hblk : ¬ 0 < blkSize := fun hblk =>
            hnot ⟨hspecial, Nat.pos_of_ne_zero hsize, hblk⟩
          simp [init, resetFlags, Nat.eq_zero_of_not_pos hblk]
      · exact .inl hspecial

/-- A read and a write that can be merged. -/
theorem populateFlags_addAll_two :
    (((({} : TargetList).init 8).addAll
        [⟨{ cmd := .WriteReq, size := 8 }, 0, 0, .FromCPU, false, true⟩,
          ⟨{ cmd := .ReadReq, size := 4 }, 0, 1, .FromCPU, false, true⟩]).populateFlags
      = (({} : TargetList).init 8).addAll
        [⟨{ cmd := .WriteReq, size := 8 }, 0, 0, .FromCPU, false, true⟩,
          ⟨{ cmd := .ReadReq, size := 4 }, 0, 1, .FromCPU, false, true⟩]) :=
  (populateFlags_addAll_iff {} rfl 8 _).mpr fun h => absurd h.1.2.2 (by decide)

/-- A secure write of the whole line is a whole-line write for `add` only. -/
theorem secure_line_forgotten :
    ((({} : TargetList).init 8).addAll
        [⟨{ cmd := .WriteReq, req := { secure := true }, size := 8 }, 0, 0, .FromCPU, false,
          true⟩]).isWholeLineWrite = true ∧
      ((({} : TargetList).init 8).addAll
        [⟨{ cmd := .WriteReq, req := { secure := true }, size := 8 }, 0, 0, .FromCPU, false,
          true⟩]).populateFlags.isWholeLineWrite = false := by
  decide

end Gem5.Mem.TargetList
