/-
# Precise rollback of the rename map

A squash walks the history from the youngest entry and writes the saved
registers back.  The result is compared with *snapshots*: next to the register
state a run records, for every instruction that was renamed and not squashed, the
map as it stood right after that instruction (`Traced`).  `Rollback` is the
invariant of one thread: undoing the entries younger than `q` gives the snapshot
of the youngest instruction not younger than `q`, and the commit map is the
snapshot of the last committed instruction.

A squash that switches the vector interface rewrites the vector maps on purpose,
so the invariant is stated for a set `K` of classes: all of them while the mode is
kept, those outside the two vector interfaces in every run.
-/
import Gem5.Ordered
import Gem5.RegisterConservation

namespace Gem5.O3

open Runs Ordered

variable {n : ℕ} {p : RegFileParams}

/-! ## Undoing histories and applying destinations -/

/-- The maps agree on the classes of `K`. -/
def AgreeOn (K : RegClass → Prop) (m m' : ArchMap) : Prop := ∀ c, K c → m c = m' c

/-- Undo several entries, the youngest first. -/
def undoAll (p : RegFileParams) (m : ArchMap) (es : List RenameHistory) : ArchMap :=
  es.foldl (undo p) m

/-- Write the destinations of an instruction into a map; misc registers are not
stored. -/
def applyDests (p : RegFileParams) (m : ArchMap) (dests : List (RegId × PhysReg)) : ArchMap :=
  dests.foldl (fun m d => if d.1.regClass = .MiscRegClass then m
    else m.set d.1.regClass (d.1.flatIndex p) d.2) m

theorem AgreeOn.refl (K : RegClass → Prop) (m : ArchMap) : AgreeOn K m m := fun _ _ => rfl

variable {K : RegClass → Prop} {m m' initial : ArchMap} {s s' : CPU n} {tid : Fin n}
  {q : InstSeqNum}

theorem AgreeOn.trans {m₁ m₂ m₃ : ArchMap} (h : AgreeOn K m₁ m₂) (h' : AgreeOn K m₂ m₃) :
    AgreeOn K m₁ m₃ :=
  fun c hc => (h c hc).trans (h' c hc)

theorem AgreeOn.symm {m₁ m₂ : ArchMap} (h : AgreeOn K m₁ m₂) :
    AgreeOn K m₂ m₁ :=
  fun c hc => (h c hc).symm

theorem AgreeOn.set (h : AgreeOn K m m') (c : RegClass) (i : ℕ) (r : PhysReg) :
    AgreeOn K (m.set c i r) (m'.set c i r) := by
  intro c' hc'
  funext i'
  rw [ArchMap.set_apply, ArchMap.set_apply, h c' hc']

theorem AgreeOn.undoAll (h : AgreeOn K m m') (es : List RenameHistory) :
    AgreeOn K (O3.undoAll p m es) (O3.undoAll p m' es) := by
  induction es generalizing m m' with
  | nil => exact h
  | cons e es ih =>
    refine ih ?_
    unfold undo
    split_ifs
    · exact h.set _ _ _
    · exact h

theorem AgreeOn.applyDests (h : AgreeOn K m m') (ds : List (RegId × PhysReg)) :
    AgreeOn K (O3.applyDests p m ds) (O3.applyDests p m' ds) := by
  induction ds generalizing m m' with
  | nil => exact h
  | cons d ds ih =>
    refine ih ?_
    show AgreeOn K (if _ then _ else _) (if _ then _ else _)
    split_ifs
    · exact h
    · exact h.set _ _ _

/-- Undoing a renaming restores the map, and the map is the old one with the
destination written. -/
theorem Renaming.undo_eq {a : RegId} {fl fl' : FreeList} {new prev : PhysReg} (seq : InstSeqNum)
    (h : Renaming a (a.flatIndex p) m fl new prev m' fl') :
    undo p m' ⟨seq, a, new, prev⟩ = m ∧ m' = applyDests p m [(a, new)] ∧
      (new ≠ prev → a.regClass ≠ .MiscRegClass) := by
  unfold undo applyDests
  simp only [List.foldl_cons, List.foldl_nil]
  cases h with
  | kept hr =>
    refine ⟨if_neg (by simp [RenameHistory.changed]), ?_, fun hne => absurd rfl hne⟩
    split_ifs with hc
    · rfl
    · exact (ArchMap.set_eq_self (hr hc)).symm
  | allocated _ rest hc hm hfl =>
    refine ⟨?_, (if_neg hc).symm, fun _ => hc⟩
    by_cases hnp : new = prev
    · -- writing back the same register changes nothing
      rw [if_neg (by simp [RenameHistory.changed, hnp]), hnp, ArchMap.set_eq_self hm]
    · rw [if_pos (by simpa [RenameHistory.changed] using hnp), ArchMap.set_set,
        ArchMap.set_eq_self hm]

/-- What the renaming loop adds to the history and does to the map. -/
theorem renameLoop_ok {seq : InstSeqNum} {rs : List RegId} {dests : List (RegId × PhysReg)}
    (h : renameLoop p tid seq s rs = .ok (s', dests)) :
    ∃ es, s'.historyBuffer = Function.update s.historyBuffer tid (es ++ s.historyBuffer tid) ∧
      (∀ e ∈ es, e.instSeqNum = seq ∧ (e.changed = true → e.archReg.regClass ≠ .MiscRegClass)) ∧
      undoAll p (s'.renameMap tid).map es = (s.renameMap tid).map ∧
      (s'.renameMap tid).map = applyDests p (s.renameMap tid).map dests ∧
      (∀ t, t ≠ tid → s'.renameMap t = s.renameMap t) ∧
      s'.commitRenameMap = s.commitRenameMap ∧ s'.instList = s.instList := by
  induction rs generalizing s dests with
  | nil =>
    cases h
    refine ⟨[], ?_, List.forall_mem_nil _, rfl, rfl, fun _ _ => rfl, rfl, rfl⟩
    rw [List.nil_append, Function.update_eq_self]
  | cons a rs ih =>
    rw [renameLoop] at h
    obtain ⟨⟨t, new⟩, ht, h⟩ := bind_eq_ok.mp h
    obtain ⟨⟨u, ds⟩, hu, h⟩ := bind_eq_ok.mp h
    cases h
    obtain ⟨es, hhist, hes, hundo, happ, hother, hcommit, hinsts⟩ := ih hu
    obtain ⟨prev, map, fl, pins, sb, hren, -, -, -, -, rfl⟩ := renameDestReg_ok ht
    simp only [Function.update_self, Function.update_idem] at hhist hundo happ hcommit hinsts
    obtain ⟨hback, hfwd, hmisc⟩ := hren.undo_eq seq
    refine ⟨es ++ [⟨seq, a, new, prev⟩], ?_, ?_, ?_, ?_, ?_, hcommit, hinsts⟩
    · rw [hhist, List.append_assoc]
      rfl
    · intro e he
      rcases List.mem_append.mp he with he | he
      · exact hes e he
      · obtain rfl := List.mem_singleton.mp he
        exact ⟨rfl, fun hch => hmisc (by simpa [RenameHistory.changed] using hch)⟩
    · unfold undoAll at hundo ⊢
      rw [List.foldl_append, hundo]
      exact hback
    · rw [happ, hfwd]
      rfl
    · intro t' ht'
      rw [hother t' ht']
      exact Function.update_of_ne ht' _ _

/-- The entries a squash to `q` undoes. -/
def younger (q : InstSeqNum) (e : RenameHistory) : Bool := q < e.instSeqNum

/-- What the squash loop does: undo the young entries and cut them off. -/
theorem squashLoop_ok {hist : List RenameHistory}
    (hmisc : ∀ e ∈ hist, e.changed = true → e.archReg.regClass ≠ .MiscRegClass)
    (h : squashLoop p tid q s hist = .ok s') :
    ∃ fl, s' = { s with
      freeList := fl
      renameMap := Function.update s.renameMap tid
        ⟨undoAll p (s.renameMap tid).map (hist.takeWhile (younger q)), (s.renameMap tid).vecMode⟩
      historyBuffer := Function.update s.historyBuffer tid (hist.dropWhile (younger q)) } := by
  induction hist generalizing s with
  | nil =>
    cases h
    refine ⟨s.freeList, ?_⟩
    have hself : Function.update s.renameMap tid
        ⟨undoAll p (s.renameMap tid).map [], (s.renameMap tid).vecMode⟩ = s.renameMap :=
      Function.update_eq_self tid s.renameMap
    rw [List.takeWhile_nil, List.dropWhile_nil, hself]
  | cons e rest ih =>
    rw [squashLoop] at h
    split_ifs at h with hgt
    · have hy : younger q e = true := by simpa [younger] using hgt
      obtain ⟨t, ht, h⟩ := bind_eq_ok.mp h
      obtain ⟨-, rfl⟩ := undoEntry_ok (hmisc e List.mem_cons_self) ht
      obtain ⟨fl, rfl⟩ := ih (fun e' he' => hmisc e' (List.mem_cons_of_mem e he')) h
      refine ⟨fl, ?_⟩
      rw [List.takeWhile_cons_of_pos hy, List.dropWhile_cons_of_pos hy]
      simp only [Function.update_self, Function.update_idem]
      rfl
    · have hy : ¬ younger q e = true := by simpa [younger] using hgt
      cases h
      refine ⟨s.freeList, ?_⟩
      have hself : Function.update s.renameMap tid
          ⟨undoAll p (s.renameMap tid).map [], (s.renameMap tid).vecMode⟩ = s.renameMap :=
        Function.update_eq_self tid s.renameMap
      rw [List.takeWhile_cons_of_neg hy, List.dropWhile_cons_of_neg hy, hself]

/-- What the commit loop leaves of the reversed history. -/
theorem commitLoop_ok {seq : InstSeqNum} {fl fl' : FreeList} {l rest : List RenameHistory}
    (h : commitLoop seq fl l = .ok (fl', rest)) :
    ∃ old, l = old ++ rest ∧ ∀ e ∈ old, e.instSeqNum ≤ seq := by
  induction l generalizing fl with
  | nil =>
    cases h
    exact ⟨[], rfl, List.forall_mem_nil _⟩
  | cons e l ih =>
    have hcons : ∀ {fl₁ : FreeList}, commitLoop seq fl₁ l = .ok (fl', rest) →
        e.instSeqNum ≤ seq → ∃ old, e :: l = old ++ rest ∧ ∀ x ∈ old, x.instSeqNum ≤ seq := by
      intro fl₁ hl hle
      obtain ⟨old, rfl, hold⟩ := ih hl
      refine ⟨e :: old, rfl, fun x hx => ?_⟩
      rcases List.mem_cons.mp hx with rfl | hx
      · exact hle
      · exact hold x hx
    rw [commitLoop] at h
    split_ifs at h with hle
    · obtain ⟨fl₁, -, h⟩ := bind_eq_ok.mp h
      exact hcons h hle
    · exact hcons h hle
    · cases h
      exact ⟨[], rfl, List.forall_mem_nil _⟩

/-- Setting the entries of an instruction applies its destinations. -/
theorem setEntries_ok {m m' : UnifiedRenameMap} {ds : List (RegId × PhysReg)}
    (h : setEntries p m ds = .ok m') : m'.map = applyDests p m.map ds := by
  induction ds generalizing m with
  | nil =>
    cases h
    rfl
  | cons d ds ih =>
    rw [setEntries] at h
    obtain ⟨m₁, h₁, h⟩ := bind_eq_ok.mp h
    rw [ih h]
    obtain ⟨-, -, ⟨hc, -, hmap⟩ | ⟨hc, -, -, hmap⟩⟩ := setEntry_ok h₁
    · show _ = applyDests p (if d.1.regClass = .MiscRegClass then m.map else _) ds
      rw [if_pos hc, hmap]
    · show _ = applyDests p (if d.1.regClass = .MiscRegClass then m.map else _) ds
      rw [if_neg hc, hmap]

/-! ## Snapshots -/

/-- The map as it stood right after an instruction was renamed. -/
structure Snapshot where
  seqNum : InstSeqNum
  map : ArchMap

/-- The snapshot of the youngest recorded instruction not younger than `q`; the
youngest is recorded first. -/
def snapAt (initial : ArchMap) : List Snapshot → InstSeqNum → ArchMap
  | [], _ => initial
  | x :: rest, q => if x.seqNum ≤ q then x.map else snapAt initial rest q

/-- The instructions in flight and their snapshots, both the oldest first: each
snapshot is the one before with the instruction's destinations written. -/
def Linked (p : RegFileParams) (K : RegClass → Prop) :
    ArchMap → List RenamedInst → List Snapshot → Prop
  | _, [], [] => True
  | base, i :: is, x :: xs => i.seqNum = x.seqNum ∧ AgreeOn K x.map (applyDests p base i.dests) ∧
      Linked p K x.map is xs
  | _, _, _ => False

/-- The map at the end of a sequence of snapshots. -/
def endMap : ArchMap → List Snapshot → ArchMap
  | base, [] => base
  | _, x :: xs => endMap x.map xs

theorem endMap_append (base : ArchMap) (xs : List Snapshot) (x : Snapshot) :
    endMap base (xs ++ [x]) = x.map := by
  induction xs generalizing base with
  | nil => rfl
  | cons y ys ih => exact ih y.map

variable {x : Snapshot}

theorem Linked.append {base : ArchMap} {is : List RenamedInst} {xs : List Snapshot}
    {i : RenamedInst} (h : Linked p K base is xs) (hseq : i.seqNum = x.seqNum)
    (hmap : AgreeOn K x.map (applyDests p (endMap base xs) i.dests)) :
    Linked p K base (is ++ [i]) (xs ++ [x]) := by
  induction is generalizing base xs with
  | nil =>
    cases xs with
    | nil => exact ⟨hseq, hmap, trivial⟩
    | cons y ys => exact absurd h id
  | cons j js ih =>
    cases xs with
    | nil => exact absurd h id
    | cons y ys => exact ⟨h.1, h.2.1, ih h.2.2 hmap⟩

/-- Squashing keeps the older part of both sequences. -/
theorem Linked.filter {base : ArchMap} {is : List RenamedInst} {xs : List Snapshot} (q : InstSeqNum)
    (h : Linked p K base is xs) (hsorted : xs.Pairwise fun a b => a.seqNum < b.seqNum) :
    Linked p K base (is.filter fun i => i.seqNum ≤ q) (xs.filter fun x => x.seqNum ≤ q) := by
  induction is generalizing base xs with
  | nil =>
    cases xs with
    | nil => trivial
    | cons y ys => exact absurd h id
  | cons j js ih =>
    cases xs with
    | nil => exact absurd h id
    | cons y ys =>
      obtain ⟨hy, hys⟩ := List.pairwise_cons.mp hsorted
      have hrest := ih h.2.2 hys
      by_cases hle : y.seqNum ≤ q
      · rw [List.filter_cons_of_pos (by simpa using h.1 ▸ hle),
          List.filter_cons_of_pos (by simpa using hle)]
        exact ⟨h.1, h.2.1, hrest⟩
      · -- everything after the first squashed instruction is squashed too
        have hnil : ys.filter (fun x => decide (x.seqNum ≤ q)) = [] :=
          List.filter_eq_nil_iff.mpr fun b hb => by
            have hlt := hy b hb
            simp only [decide_eq_true_eq]
            exact fun hb' => hle (le_trans (le_of_lt hlt) hb')
        rw [hnil] at hrest
        rw [List.filter_cons_of_neg (by rw [h.1]; simpa using hle),
          List.filter_cons_of_neg (by simpa using hle), hnil]
        cases hjs : js.filter (fun i => decide (i.seqNum ≤ q)) with
        | nil => trivial
        | cons k ks =>
          rw [hjs] at hrest
          exact absurd hrest id

/-! ## Looking up snapshots -/

variable {trace : List Snapshot}

theorem snapAt_of_lt (h : q < x.seqNum) : snapAt initial (x :: trace) q = snapAt initial trace q :=
  if_neg (not_le.mpr h)

theorem snapAt_of_le (h : x.seqNum ≤ q) : snapAt initial (x :: trace) q = x.map :=
  if_pos h

/-- A squash to `q₀` forgets the snapshots after `q₀`. -/
theorem snapAt_filter (initial : ArchMap) (trace : List Snapshot) (q₀ q : InstSeqNum) :
    snapAt initial (trace.filter fun x => x.seqNum ≤ q₀) q = snapAt initial trace (min q q₀) := by
  induction trace with
  | nil => rfl
  | cons x trace ih =>
    by_cases hx : x.seqNum ≤ q₀
    · rw [List.filter_cons_of_pos (by simpa using hx), snapAt, snapAt, ih]
      refine if_congr ?_ rfl rfl
      rw [le_min_iff, and_iff_left hx]
    · rw [List.filter_cons_of_neg (by simpa using hx), ih,
        snapAt_of_lt (lt_of_le_of_lt (min_le_right q q₀) (not_le.mp hx))]

/-- In a sorted trace every snapshot is found at its own number. -/
theorem snapAt_of_mem (hsorted : trace.Pairwise fun a b => b.seqNum < a.seqNum) (hx : x ∈ trace) :
    snapAt initial trace x.seqNum = x.map := by
  induction trace with
  | nil => exact absurd hx List.not_mem_nil
  | cons y trace ih =>
    obtain ⟨hy, htrace⟩ := List.pairwise_cons.mp hsorted
    rcases List.mem_cons.mp hx with rfl | hx
    · exact snapAt_of_le le_rfl
    · rw [snapAt_of_lt (hy x hx)]
      exact ih htrace hx

/-- The last snapshot in flight is the snapshot of the youngest instruction. -/
theorem endMap_eq_snapAt {last : InstSeqNum}
    (hsorted : trace.Pairwise fun a b => b.seqNum < a.seqNum) (hq : ∀ x ∈ trace, x.seqNum ≤ q) :
    endMap (snapAt initial trace last) (trace.filter fun x => last < x.seqNum).reverse =
      snapAt initial trace q := by
  cases trace with
  | nil => rfl
  | cons x trace =>
    rw [snapAt_of_le (hq x List.mem_cons_self)]
    by_cases hx : last < x.seqNum
    · rw [List.filter_cons_of_pos (by simpa using hx), List.reverse_cons, endMap_append]
    · have hnil : trace.filter (fun y => decide (last < y.seqNum)) = [] :=
        List.filter_eq_nil_iff.mpr fun y hy => by
          have hlt := (List.pairwise_cons.mp hsorted).1 y hy
          simp only [decide_eq_true_eq]
          exact fun hl => hx (lt_trans hl hlt)
      rw [List.filter_cons_of_neg (by simpa using hx), hnil, snapAt_of_le (not_lt.mp hx)]
      rfl

/-! ## The invariant of one thread -/

/-- **The rollback invariant** of one thread: its initial map, current map, commit
map, history, snapshots, instructions in flight and last committed number. -/
structure Rollback (p : RegFileParams) (K : RegClass → Prop) (initial m cm : ArchMap)
    (hist : List RenameHistory) (trace : List Snapshot) (insts : List RenamedInst)
    (last : InstSeqNum) : Prop where
  misc : ∀ e ∈ hist, e.changed = true → e.archReg.regClass ≠ .MiscRegClass
  histSorted : hist.Pairwise fun a b => b.instSeqNum ≤ a.instSeqNum
  histTrace : ∀ e ∈ hist, ∃ x ∈ trace, x.seqNum = e.instSeqNum
  traceSorted : trace.Pairwise fun a b => b.seqNum < a.seqNum
  rollback : ∀ q, last ≤ q →
    AgreeOn K (undoAll p m (hist.filter (younger q))) (snapAt initial trace q)
  linked : Linked p K (snapAt initial trace last) insts
    (trace.filter fun x => last < x.seqNum).reverse
  commit : AgreeOn K cm (snapAt initial trace last)

section Thread

variable {K : RegClass → Prop} {initial m cm : ArchMap} {hist : List RenameHistory}
  {trace : List Snapshot} {insts : List RenamedInst} {last : InstSeqNum}

/-- The current map is the snapshot of the youngest instruction. -/
theorem Rollback.current (h : Rollback p K initial m cm hist trace insts last) {q : InstSeqNum}
    (hlast : last ≤ q) (hq : ∀ x ∈ trace, x.seqNum ≤ q) :
    AgreeOn K m (snapAt initial trace q) := by
  have hnil : hist.filter (younger q) = [] :=
    List.filter_eq_nil_iff.mpr fun e he => by
      obtain ⟨x, hx, hxe⟩ := h.histTrace e he
      simpa [younger, ← hxe] using hq x hx
  have hroll := h.rollback q hlast
  rw [hnil] at hroll
  exact hroll

/-- Renaming an instruction younger than all others. -/
theorem Rollback.rename (h : Rollback p K initial m cm hist trace insts last)
    {seq : InstSeqNum} {m' : ArchMap} {es : List RenameHistory} {dests : List (RegId × PhysReg)}
    (hlast : last < seq) (hseq : ∀ x ∈ trace, x.seqNum < seq)
    (hes : ∀ e ∈ es, e.instSeqNum = seq ∧
      (e.changed = true → e.archReg.regClass ≠ .MiscRegClass))
    (hundo : undoAll p m' es = m) (happ : m' = applyDests p m dests) :
    Rollback p K initial m' cm (es ++ hist) (⟨seq, m'⟩ :: trace) (insts ++ [⟨seq, dests⟩]) last := by
  have hhist : ∀ e ∈ hist, e.instSeqNum < seq := fun e he => by
    obtain ⟨x, hx, hxe⟩ := h.histTrace e he
    exact hxe ▸ hseq x hx
  have hsnap : snapAt initial (⟨seq, m'⟩ :: trace) last = snapAt initial trace last :=
    snapAt_of_lt hlast
  refine ⟨fun e he => ?_, ?_, fun e he => ?_, ?_, fun q hq => ?_, ?_, ?_⟩
  · rcases List.mem_append.mp he with he | he
    · exact (hes e he).2
    · exact h.misc e he
  · refine List.pairwise_append.mpr ⟨?_, h.histSorted, fun a ha b hb => ?_⟩
    · refine List.pairwise_of_forall_mem_list fun a ha b hb => ?_
      rw [(hes a ha).1, (hes b hb).1]
    · rw [(hes a ha).1]
      exact le_of_lt (hhist b hb)
  · rcases List.mem_append.mp he with he | he
    · exact ⟨_, List.mem_cons_self, (hes e he).1.symm⟩
    · obtain ⟨x, hx, hxe⟩ := h.histTrace e he
      exact ⟨x, List.mem_cons_of_mem _ hx, hxe⟩
  · exact List.pairwise_cons.mpr ⟨hseq, h.traceSorted⟩
  · rw [List.filter_append]
    by_cases hle : seq ≤ q
    · -- nothing is younger than `q`: the current map is the new snapshot
      have h1 : es.filter (younger q) = [] := List.filter_eq_nil_iff.mpr fun e he => by
        simpa [younger, (hes e he).1] using hle
      have h2 : hist.filter (younger q) = [] := List.filter_eq_nil_iff.mpr fun e he => by
        simpa [younger] using le_trans (le_of_lt (hhist e he)) hle
      rw [h1, h2, snapAt_of_le hle]
      exact AgreeOn.refl K m'
    · have h1 : es.filter (younger q) = es := List.filter_eq_self.mpr fun e he => by
        simpa [younger, (hes e he).1] using hle
      rw [h1, snapAt_of_lt (not_le.mp hle)]
      unfold undoAll at hundo ⊢
      rw [List.foldl_append, hundo]
      exact h.rollback q hq
  · rw [hsnap, List.filter_cons_of_pos (by simpa using hlast), List.reverse_cons]
    refine h.linked.append rfl ?_
    rw [endMap_eq_snapAt h.traceSorted fun x hx => le_of_lt (hseq x hx), happ]
    exact (h.current (le_of_lt hlast) fun x hx => le_of_lt (hseq x hx)).applyDests dests
  · rw [hsnap]
    exact h.commit

/-- Removing committed entries from the end of the history. -/
theorem Rollback.remove (h : Rollback p K initial m cm hist trace insts last)
    {hist' old : List RenameHistory} (hsplit : hist = hist' ++ old)
    (hold : ∀ e ∈ old, e.instSeqNum ≤ last) :
    Rollback p K initial m cm hist' trace insts last := by
  have hmem : ∀ e ∈ hist', e ∈ hist := fun e he => hsplit ▸ List.mem_append_left old he
  refine ⟨fun e he => h.misc e (hmem e he), ?_, fun e he => h.histTrace e (hmem e he),
    h.traceSorted, fun q hq => ?_, h.linked, h.commit⟩
  · exact (List.pairwise_append.mp (hsplit ▸ h.histSorted)).1
  · have hnil : old.filter (younger q) = [] := List.filter_eq_nil_iff.mpr fun e he => by
      simpa [younger] using le_trans (hold e he) hq
    have hroll := h.rollback q hq
    rw [hsplit, List.filter_append, hnil, List.append_nil] at hroll
    exact hroll

/-- Squashing back to `q₀`. -/
theorem Rollback.squash (h : Rollback p K initial m cm hist trace insts last)
    {q₀ : InstSeqNum} (hq₀ : last ≤ q₀) {m' cm' : ArchMap}
    (hm' : AgreeOn K m' (undoAll p m (hist.filter (younger q₀)))) (hcm' : AgreeOn K cm' cm) :
    Rollback p K initial m' cm' (hist.filter fun e => !younger q₀ e)
      (trace.filter fun x => x.seqNum ≤ q₀) (insts.filter fun i => i.seqNum ≤ q₀) last := by
  have hsnap : snapAt initial (trace.filter fun x => x.seqNum ≤ q₀) last =
      snapAt initial trace last := by
    rw [snapAt_filter, min_eq_left hq₀]
  refine ⟨fun e he => h.misc e (List.mem_of_mem_filter he), h.histSorted.filter _, fun e he => ?_,
    h.traceSorted.filter _, fun q hq => ?_, ?_, ?_⟩
  · obtain ⟨hmem, hle⟩ := List.mem_filter.mp he
    obtain ⟨x, hx, hxe⟩ := h.histTrace e hmem
    refine ⟨x, List.mem_filter.mpr ⟨hx, ?_⟩, hxe⟩
    rw [hxe]
    simpa [younger] using hle
  · rw [snapAt_filter, List.filter_filter]
    by_cases hle : q₀ ≤ q
    · -- nothing is left to undo
      have hnil : hist.filter (fun e => younger q e && !younger q₀ e) = [] :=
        List.filter_eq_nil_iff.mpr fun e _ => by
          simp only [younger, Bool.and_eq_true, Bool.not_eq_true', decide_eq_true_eq,
            decide_eq_false_iff_not, not_and, not_not]
          exact fun hlt => lt_of_le_of_lt hle hlt
      rw [hnil, min_eq_right hle]
      exact hm'.trans (h.rollback q₀ hq₀)
    · -- the entries younger than `q` are those younger than `q₀` and then the rest
      have hlt : q < q₀ := not_le.mp hle
      have hsplit : hist.filter (younger q) =
          hist.filter (younger q₀) ++ hist.filter (fun e => younger q e && !younger q₀ e) := by
        have hpre := takeWhile_eq_filter (q := younger q₀) (l := hist)
          (h.histSorted.imp fun {a b} hab hb => by
            simp only [younger, decide_eq_true_eq] at hb ⊢
            exact lt_of_lt_of_le hb hab)
        conv_lhs => rw [← List.takeWhile_append_dropWhile (p := younger q₀) (l := hist)]
        rw [List.filter_append, hpre.1, hpre.2, List.filter_filter, List.filter_filter]
        congr 1
        refine List.filter_congr fun e _ => ?_
        rw [Bool.and_eq_right_iff_imp]
        simp only [younger, decide_eq_true_eq]
        exact fun he => lt_trans hlt he
      rw [min_eq_left (le_of_lt hlt)]
      have hroll := h.rollback q hq
      rw [hsplit] at hroll
      unfold undoAll at hroll hm'
      rw [List.foldl_append] at hroll
      exact (hm'.undoAll _).trans hroll
  · rw [hsnap, List.filter_filter]
    have hlinked := h.linked.filter q₀ (List.pairwise_reverse.mpr (h.traceSorted.filter _))
    rw [List.filter_reverse, List.filter_filter] at hlinked
    have hcomm : trace.filter (fun a => decide (last < a.seqNum) && decide (a.seqNum ≤ q₀)) =
        trace.filter (fun a => decide (a.seqNum ≤ q₀) && decide (last < a.seqNum)) :=
      List.filter_congr fun x _ => Bool.and_comm _ _
    rw [hcomm]
    exact hlinked
  · rw [hsnap]
    exact hcm'.trans h.commit

/-- Committing the oldest instruction in flight. -/
theorem Rollback.commitHead {head : RenamedInst} {rest : List RenamedInst}
    (h : Rollback p K initial m cm hist trace (head :: rest) last) :
    Rollback p K initial m (applyDests p cm head.dests) hist trace rest head.seqNum ∧
      last < head.seqNum := by
  have hlinked := h.linked
  cases hxs : (trace.filter fun x => decide (last < x.seqNum)).reverse with
  | nil =>
    rw [hxs] at hlinked
    exact absurd hlinked id
  | cons x xs =>
    rw [hxs] at hlinked
    obtain ⟨hseq, hmap, hrest⟩ := hlinked
    have hflt : trace.filter (fun x => decide (last < x.seqNum)) = xs.reverse ++ [x] := by
      rw [← List.reverse_reverse (trace.filter _), hxs, List.reverse_cons]
    have hx : x ∈ trace ∧ last < x.seqNum := by
      have hmem : x ∈ trace.filter (fun x => decide (last < x.seqNum)) := by
        rw [hflt]
        exact List.mem_append_right _ (List.mem_singleton_self x)
      simpa using List.mem_filter.mp hmem
    have hsorted : ∀ y ∈ xs, x.seqNum < y.seqNum := by
      have hp := List.pairwise_reverse.mpr
        (h.traceSorted.filter fun x => decide (last < x.seqNum))
      rw [hxs] at hp
      exact (List.pairwise_cons.mp hp).1
    -- what is younger than the committed instruction is the rest in flight
    have hnext : (trace.filter fun y => decide (x.seqNum < y.seqNum)).reverse = xs := by
      have htwice : trace.filter (fun y => decide (x.seqNum < y.seqNum)) =
          (trace.filter fun y => decide (last < y.seqNum)).filter
            fun y => decide (x.seqNum < y.seqNum) := by
        rw [List.filter_filter]
        refine List.filter_congr fun y _ => ?_
        rw [eq_comm, Bool.and_eq_left_iff_imp]
        simp only [decide_eq_true_eq]
        exact fun hlt => lt_trans hx.2 hlt
      rw [htwice, hflt, List.filter_append, List.filter_cons_of_neg (by simp), List.filter_nil,
        List.append_nil, List.filter_eq_self.mpr fun y hy => by
          simpa using hsorted y (List.mem_reverse.mp hy), List.reverse_reverse]
    rw [hseq]
    have hsnap : snapAt initial trace x.seqNum = x.map := snapAt_of_mem h.traceSorted hx.1
    refine ⟨⟨h.misc, h.histSorted, h.histTrace, h.traceSorted,
      fun q hq => h.rollback q (le_trans (le_of_lt hx.2) hq), ?_, ?_⟩, hx.2⟩
    · rw [hsnap, hnext]
      exact hrest
    · rw [hsnap]
      exact (h.commit.applyDests head.dests).trans hmap.symm

end Thread

/-! ## Runs with snapshots -/

/-- The register state with what a run records beside it: the initial maps, the
snapshots of the instructions that were not squashed, and the number of the last
committed instruction of each thread. -/
structure Traced (n : ℕ) where
  cpu : CPU n
  initial : Fin n → ArchMap
  trace : Fin n → List Snapshot
  lastCommitted : Fin n → InstSeqNum

/-- Nothing renamed yet. -/
def Traced.start (s : CPU n) : Traced n where
  cpu := s
  initial := fun t => (s.renameMap t).map
  trace := fun _ => []
  lastCommitted := fun _ => 0

/-- What an action records, given the register state after it. -/
def Traced.record (s : Traced n) (cpu' : CPU n) : Action n → Traced n
  | .renameDestRegs tid inst _ => { s with
      cpu := cpu'
      trace := Function.update s.trace tid
        (⟨inst.seqNum, (cpu'.renameMap tid).map⟩ :: s.trace tid) }
  | .doSquash seq tid _ => { s with
      cpu := cpu'
      trace := Function.update s.trace tid ((s.trace tid).filter fun x => x.seqNum ≤ seq) }
  | .commitHead tid => { s with
      cpu := cpu'
      lastCommitted := match s.cpu.instList tid with
        | [] => s.lastCommitted
        | head :: _ => Function.update s.lastCommitted tid head.seqNum }
  | _ => { s with cpu := cpu' }

/-- One action, recorded. -/
def Traced.step (p : RegFileParams) (s : Traced n) (a : Action n) : Except Fault (Traced n) := do
  let cpu' ← O3.step p s.cpu a
  return s.record cpu' a

/-- The order of the pipeline: a renamed instruction is younger than all that were
not squashed, a squash goes back to an instruction not older than the last
committed one, and only committed instructions leave the history.  With `fixed`,
no squash changes the vector interface. -/
def admitted (fixed : Bool) (s : Traced n) : Action n → Prop
  | .renameDestRegs tid inst _ => s.lastCommitted tid < inst.seqNum ∧
      ∀ x ∈ s.trace tid, x.seqNum < inst.seqNum
  | .doSquash seq tid mode => s.lastCommitted tid ≤ seq ∧ (fixed = true → mode = s.cpu.vecMode)
  | .removeFromHistory seq tid => seq ≤ s.lastCommitted tid
  | _ => True

/-- The classes whose maps are rolled back exactly: all of them when no squash
changes the vector interface. -/
def RolledBack (fixed : Bool) (c : RegClass) : Prop :=
  fixed = true ∨ (c ≠ .VecRegClass ∧ c ≠ .VecElemClass)

/-- The invariant of all threads. -/
structure TracedInv (p : RegFileParams) (fixed : Bool) (s : Traced n) : Prop where
  inv : Inv p s.cpu
  threads : ∀ t, Rollback p (RolledBack fixed) (s.initial t) (s.cpu.renameMap t).map
    (s.cpu.commitRenameMap t).map (s.cpu.historyBuffer t) (s.trace t) (s.cpu.instList t)
    (s.lastCommitted t)

theorem tracedInv_start (fixed : Bool) (hcfg : configOk p n = true) (hs : s = bound p n n) :
    TracedInv p fixed (Traced.start s) := by
  subst hs
  refine ⟨inv_init hcfg, fun t => ⟨List.forall_mem_nil _, .nil, List.forall_mem_nil _, .nil, ?_, ?_, ?_⟩⟩
  · exact fun q _ => AgreeOn.refl _ _
  · trivial
  · exact AgreeOn.refl _ _

/-- A change of the mode keeps the maps of the rolled back classes, and the maps of
the other threads. -/
theorem switchRenameMode_frame {mode : VecRegRenameMode} {fixed : Bool}
    (hmode : fixed = true → mode = s.vecMode) (h : switchRenameMode p s tid mode = .ok s') :
    AgreeOn (RolledBack fixed) (s'.renameMap tid).map (s.renameMap tid).map ∧
      AgreeOn (RolledBack fixed) (s'.commitRenameMap tid).map (s.commitRenameMap tid).map ∧
      (∀ t, t ≠ tid → s'.renameMap t = s.renameMap t ∧
        s'.commitRenameMap t = s.commitRenameMap t) ∧
      s'.historyBuffer = s.historyBuffer ∧ s'.instList = s.instList := by
  by_cases hne : mode = s.vecMode
  · rw [hne, switchRenameMode_same] at h
    cases h
    exact ⟨AgreeOn.refl _ _, AgreeOn.refl _ _, fun _ _ => ⟨rfl, rfl⟩, rfl, rfl⟩
  · have hfixed : fixed = false := by
      cases fixed with
      | false => rfl
      | true => exact absurd (hmode rfl) hne
    obtain ⟨map, commitMap, fl, rf, rf', sb, hmap, hcommit, -, -, rfl⟩ := switchRenameMode_ok hne h
    have hvec : ∀ c, RolledBack fixed c → c ≠ .VecRegClass ∧ c ≠ .VecElemClass := fun c hc =>
      hc.resolve_left (by rw [hfixed]; decide)
    refine ⟨fun c hc => ?_, fun c hc => ?_, fun t ht => ?_, rfl, rfl⟩
    · simp only [Function.update_self]
      exact switchMode_of_ne hmap (hvec c hc).1 (hvec c hc).2
    · simp only [Function.update_self]
      exact switchMode_of_ne hcommit (hvec c hc).1 (hvec c hc).2
    · exact ⟨Function.update_of_ne ht _ _, Function.update_of_ne ht _ _⟩

/-- **What a squash does**: the rolled back classes of the thread's map are undone,
its young entries are cut off, and nothing of another thread changes. -/
theorem doSquash_ok {mode : VecRegRenameMode} {fixed : Bool} {cm : ArchMap}
    {insts : List RenamedInst} {last : InstSeqNum}
    (hroll : Rollback p K initial (s.renameMap tid).map cm (s.historyBuffer tid) trace insts last)
    (hmode : fixed = true → mode = s.vecMode) (h : doSquash p s q tid mode = .ok s') :
    AgreeOn (RolledBack fixed) (s'.renameMap tid).map
        (undoAll p (s.renameMap tid).map ((s.historyBuffer tid).filter (younger q))) ∧
      AgreeOn (RolledBack fixed) (s'.commitRenameMap tid).map (s.commitRenameMap tid).map ∧
      s'.historyBuffer = Function.update s.historyBuffer tid
        ((s.historyBuffer tid).filter fun e => !younger q e) ∧
      (∀ t, t ≠ tid → s'.renameMap t = s.renameMap t ∧
        s'.commitRenameMap t = s.commitRenameMap t) ∧
      s'.instList = s.instList := by
  unfold doSquash at h
  obtain ⟨u, hu, h⟩ := bind_eq_ok.mp h
  obtain ⟨fl, rfl⟩ := squashLoop_ok hroll.misc hu
  have hpre := takeWhile_eq_filter (q := younger q) (l := s.historyBuffer tid)
    (hroll.histSorted.imp fun {a b} hab hb => by
      simp only [younger, decide_eq_true_eq] at hb ⊢
      exact lt_of_lt_of_le hb hab)
  rw [hpre.1, hpre.2] at h
  obtain ⟨hmap, hcommit, hother, hhist, hinsts⟩ :=
    switchRenameMode_frame (by exact hmode) h
  simp only [Function.update_self] at hmap
  refine ⟨hmap, hcommit, hhist, fun t ht => ?_, hinsts⟩
  obtain ⟨h1, h2⟩ := hother t ht
  simp only [Function.update_of_ne ht] at h1
  exact ⟨h1, h2⟩

/-- **Every admitted action keeps the rollback invariant.** -/
theorem tracedInv_step {fixed : Bool} {s s' : Traced n} {a : Action n} (h : TracedInv p fixed s)
    (hadm : admitted fixed s a) (hs : s.step p a = .ok s') : TracedInv p fixed s' := by
  unfold Traced.step at hs
  obtain ⟨cpu', hcpu, hs⟩ := bind_eq_ok.mp hs
  cases hs
  have hinv := inv_step h.inv hcpu
  refine ⟨by cases a <;> exact hinv, fun t => ?_⟩
  have hold := h.threads t
  cases a with
  | renameDestRegs tid inst flat =>
    obtain ⟨u, dests, hloop, rfl⟩ := renameDestRegs_ok hcpu
    obtain ⟨es, hhist, hes, hundo, happ, hother, hcommit, hinsts⟩ := renameLoop_ok hloop
    by_cases ht : t = tid
    · subst ht
      simp only [Traced.record, Function.update_self, hhist, hcommit, hinsts]
      exact hold.rename hadm.1 hadm.2 hes hundo happ
    · simp only [Traced.record, Function.update_of_ne ht, hhist, hcommit, hinsts, hother t ht]
      exact hold
  | doSquash seq tid mode =>
    obtain ⟨u, hu, hcpu⟩ := bind_eq_ok.mp hcpu
    cases hcpu
    obtain ⟨hmap, hcommit, hhist, hother, hinsts⟩ := doSquash_ok (h.threads tid) hadm.2 hu
    by_cases ht : t = tid
    · subst ht
      simp only [Traced.record, Function.update_self, hhist, hinsts]
      exact hold.squash hadm.1 hmap hcommit
    · obtain ⟨h1, h2⟩ := hother t ht
      simp only [Traced.record, Function.update_of_ne ht, hhist, hinsts, h1, h2]
      exact hold
  | removeFromHistory seq tid =>
    obtain ⟨fl, rest, hloop, rfl⟩ := removeFromHistory_ok hcpu
    by_cases ht : t = tid
    · subst ht
      obtain ⟨old, hsplit, hle⟩ := commitLoop_ok hloop
      simp only [Traced.record, Function.update_self]
      have hback : s.cpu.historyBuffer t = rest.reverse ++ old.reverse := by
        rw [← List.reverse_append, ← hsplit, List.reverse_reverse]
      refine hold.remove hback fun e he => le_trans (hle e (List.mem_reverse.mp he)) hadm
    · simp only [Traced.record, Function.update_of_ne ht]
      exact hold
  | commitHead tid =>
    rcases commitHead_ok hcpu with ⟨hnil, rfl⟩ | ⟨head, rest, map, hcons, hmap, rfl⟩
    · simp only [Traced.record, hnil]
      exact hold
    · by_cases ht : t = tid
      · subst ht
        simp only [Traced.record, hcons, Function.update_self]
        rw [hcons] at hold
        rw [setEntries_ok hmap]
        exact hold.commitHead.1
      · simp only [Traced.record, hcons, Function.update_of_ne ht]
        exact hold
  | setReg r =>
    obtain ⟨sb, -, hcpu⟩ := bind_eq_ok.mp hcpu
    cases hcpu
    exact hold
  | setPins r pins =>
    cases hcpu
    exact hold

/-! ## A squash that keeps the mode succeeds -/

/-- Undoing the youngest entry of a conserved history meets every assertion. -/
theorem undoEntry_eq_ok {hist : Fin n → List RenameHistory} {e : RenameHistory}
    {rest : List RenameHistory}
    (h : Conserved p s.freeList (fun t => (s.renameMap t).map) hist s.vecMode)
    (hmode : (s.renameMap tid).vecMode = s.vecMode) (hhist : hist tid = e :: rest) :
    ∃ s', undoEntry p s tid e = .ok s' := by
  unfold undoEntry
  by_cases hch : e.changed = true
  · have hmem : e ∈ hist tid := by
      rw [hhist]
      exact List.mem_cons_self
    have hact := h.active_of_mem hmem hch
    have hundo := h.undoable tid
    rw [hhist] at hundo
    have hnew := hundo.1 hch
    have hi : e.archReg.flatIndex p < p.numArchRegs e.archReg.regClass :=
      h.inRange tid _ _ (by simp only [hnew]; rfl)
    have hprev : e.prevPhysReg.regClass = e.archReg.regClass := by
      refine h.regClass_of_mem hact
        (Multiset.mem_add.mpr (.inr (Multiset.mem_sum.mpr ⟨tid, Finset.mem_univ tid, ?_⟩)))
      exact List.mem_filterMap.mpr ⟨e, hmem, savedReg_of_changed rfl hch⟩
    have hcls : e.newPhysReg.regClass = e.archReg.regClass :=
      h.regClass_of_mem hact (mem_occurrences_of_map hi hnew)
    rw [if_pos hch, setEntry_eq_ok (by rw [hmode]; exact hact) hprev hi]
    unfold FreeList.addReg
    rw [if_neg (by rw [hcls]; exact hact.1)]
    exact ⟨_, rfl⟩
  · rw [if_neg hch]
    exact ⟨s, rfl⟩

theorem squashLoop_eq_ok (q : InstSeqNum) {hist : List RenameHistory}
    (h : Conserved p s.freeList (fun t => (s.renameMap t).map)
      (Function.update s.historyBuffer tid hist) s.vecMode)
    (hmode : ∀ t, (s.renameMap t).vecMode = s.vecMode) :
    ∃ s', squashLoop p tid q s hist = .ok s' ∧ s'.vecMode = s.vecMode := by
  induction hist generalizing s with
  | nil => exact ⟨_, rfl, rfl⟩
  | cons e rest ih =>
    rw [squashLoop]
    split_ifs with hgt
    · have hself := Function.update_self tid (e :: rest) s.historyBuffer
      obtain ⟨t, ht⟩ := undoEntry_eq_ok h (hmode tid) hself
      have hmem : e ∈ Function.update s.historyBuffer tid (e :: rest) tid := by
        rw [hself]
        exact List.mem_cons_self
      obtain ⟨-, rfl⟩ := undoEntry_ok (fun hch => (h.active_of_mem hmem hch).1) ht
      have hnext := h.undoEntry hself
      rw [Function.update_idem] at hnext
      rw [← map_update s.renameMap tid ⟨_, (s.renameMap tid).vecMode⟩] at hnext
      generalize hu : ({ s with freeList := _, renameMap := _ } : CPU n) = u at ht
      obtain ⟨s', hs', hvec⟩ := ih (s := u) (by subst hu; exact hnext)
        (by subst hu; exact vecMode_update hmode (hmode tid))
      exact ⟨s', bind_eq_ok.mpr ⟨u, ht, hs'⟩, by rw [hvec, ← hu]⟩
    · exact ⟨_, rfl, rfl⟩

theorem doSquash_eq_ok (h : Inv p s) (q : InstSeqNum) (tid : Fin n) :
    ∃ s', doSquash p s q tid s.vecMode = .ok s' := by
  have hcons := h.conserved
  rw [← Function.update_eq_self tid s.historyBuffer] at hcons
  obtain ⟨s', hs', hvec⟩ := squashLoop_eq_ok q hcons h.mode
  refine ⟨s', bind_eq_ok.mpr ⟨s', hs', ?_⟩⟩
  rw [← hvec, switchRenameMode_same]

/-! ## The main theorem -/

/-- **A squash rolls the map back precisely.**  In every run of renames, commits,
removals and squashes over all threads, and for every `q` not older than the last
committed instruction of `tid`: a squash to `q` that keeps the vector interface
succeeds, and after a squash the map of `tid` is the one that stood right after
the youngest instruction not younger than `q` was renamed; no other thread's map
or history changes; and a squash to the last committed instruction gives the
commit map.  With `fixed` (no squash of the run changed the vector interface) this
is the whole map, without it every class outside the two vector interfaces. -/
theorem doSquash_rolls_back (p : RegFileParams) (n : ℕ) (fixed : Bool) (s₀ : CPU n) (s : Traced n)
    (hinit : CPU.init p n = .ok s₀)
    (hs : Reached (admitted fixed) (Traced.step p) (Traced.start s₀) s) (tid : Fin n)
    (q : InstSeqNum) (hq : s.lastCommitted tid ≤ q) :
    (∃ s', doSquash p s.cpu q tid s.cpu.vecMode = .ok s') ∧
    ∀ mode s', doSquash p s.cpu q tid mode = .ok s' → (fixed = true → mode = s.cpu.vecMode) →
      (∀ c, RolledBack fixed c →
        (s'.renameMap tid).map c = snapAt (s.initial tid) (s.trace tid) q c) ∧
      (∀ t, t ≠ tid → s'.renameMap t = s.cpu.renameMap t ∧
        s'.historyBuffer t = s.cpu.historyBuffer t) ∧
      (q = s.lastCommitted tid → ∀ c, RolledBack fixed c →
        (s'.renameMap tid).map c = (s'.commitRenameMap tid).map c) := by
  obtain ⟨hcfg, hbound⟩ := init_ok hinit
  have hinv : TracedInv p fixed s :=
    hs.invariant (fun _ _ _ h hadm hstep => tracedInv_step h hadm hstep)
      (tracedInv_start fixed hcfg hbound)
  refine ⟨doSquash_eq_ok hinv.inv q tid, fun mode s' hsq hmode => ?_⟩
  obtain ⟨hmap, hcommit, hhist, hother, -⟩ := doSquash_ok (hinv.threads tid) hmode hsq
  have hroll := hmap.trans ((hinv.threads tid).rollback q hq)
  refine ⟨hroll, fun t ht => ⟨(hother t ht).1, ?_⟩, fun hlast => ?_⟩
  · rw [hhist, Function.update_of_ne ht]
  · subst hlast
    exact hroll.trans ((hcommit.trans (hinv.threads tid).commit).symm)

theorem doSquash_rolls_back_smallFull :
    ∃ s, Traced.step smallFull (Traced.start (bound smallFull 1 1))
        (.renameDestRegs 0 writesInt flatId) = .ok s ∧
      ∃ s', doSquash smallFull s.cpu 0 0 s.cpu.vecMode = .ok s' ∧
        (s'.renameMap 0).map .IntRegClass =
          ((bound smallFull 1 1).renameMap 0).map .IntRegClass := by
  have hinit : CPU.init smallFull 1 = .ok (bound smallFull 1 1) := init_eq (by decide)
  obtain ⟨s, hs, hlast, hinitial, htrace⟩ : ∃ s, Traced.step smallFull
      (Traced.start (bound smallFull 1 1)) (.renameDestRegs 0 writesInt flatId) = .ok s ∧
      s.lastCommitted 0 = 0 ∧ s.initial 0 = ((bound smallFull 1 1).renameMap 0).map ∧
      ∃ m, s.trace 0 = [⟨1, m⟩] := ⟨_, rfl, rfl, rfl, _, rfl⟩
  obtain ⟨m, htrace⟩ := htrace
  have hreach := (Reached.refl (admitted true) (Traced.step smallFull) _).step
    (show admitted true (Traced.start (bound smallFull 1 1)) (.renameDestRegs 0 writesInt flatId)
      from ⟨by decide, List.forall_mem_nil _⟩) hs
  obtain ⟨⟨s', hs'⟩, hall⟩ :=
    doSquash_rolls_back smallFull 1 true _ s hinit hreach 0 0 (le_of_eq hlast)
  refine ⟨s, hs, s', hs', ?_⟩
  rw [(hall _ s' hs' fun _ => rfl).1 _ (.inl rfl), htrace, hinitial]
  rfl

/-- **A squash that switches the vector interface rewrites the vector maps**: with
nothing in flight, switching to elements gives the elements a mapping that the map
did not have. -/
theorem mode_switch_rewrites_map :
    ¬ ∀ (p : RegFileParams) (n : ℕ) (s₀ : CPU n) (s : Traced n) (tid : Fin n) (q : InstSeqNum)
      (mode : VecRegRenameMode) (s' : CPU n), CPU.init p n = .ok s₀ →
      Reached (admitted false) (Traced.step p) (Traced.start s₀) s → s.lastCommitted tid ≤ q →
      doSquash p s.cpu q tid mode = .ok s' →
        (s'.renameMap tid).map = snapAt (s.initial tid) (s.trace tid) q := by
  intro h
  obtain ⟨s', hs', hmap⟩ : ∃ s', doSquash smallFull (bound smallFull 1 1) 0 0 .Elem = .ok s' ∧
      (s'.renameMap 0).map .VecElemClass 0 = some ⟨.VecElemClass, 0⟩ := ⟨_, rfl, rfl⟩
  have heq := h smallFull 1 _ (Traced.start (bound smallFull 1 1)) 0 0 .Elem s'
    (init_eq (by decide)) (Reached.refl _ _ _) le_rfl hs'
  rw [heq] at hmap
  exact absurd hmap (by decide)

end Gem5.O3
