/-
# The folded histories of TAGE

The incremental registers of `TageHistory` against the surviving outcomes of the branches.
`survive` is the abstract history: the outcomes of all branches that have not been squashed, the
latest one first.  `Tracks` relates a thread to it.  The buffer holds the `maxHist + 1` latest
outcomes, and the same at the pointer of every branch that can still be squashed; these pointers
follow each other in a ring of `histBufferSize - maxHist` positions, which a roll-over goes around
(`slot`).
-/
import Gem5.TageHistory
import Gem5.FoldedBits

open Runs IntIndex FoldedBits

namespace Gem5.BranchPrediction.TAGE

/-! ## The surviving history -/

/-- The outcomes of the branches that have not been squashed, the latest one first. -/
def survive (outcomes : List Bool) : Action → List Bool
  | .predict _ taken => taken :: outcomes
  | .btbUpdate => false :: outcomes.drop 1
  | .squash i taken => taken :: outcomes.drop (i + 1)
  | .retire => outcomes

/-- The outcome of age `a`, not taken before the first branch. -/
def outcome (outcomes : List Bool) (a : ℕ) : Bool := outcomes.getD a false

theorem outcome_cons_succ (b : Bool) (outcomes : List Bool) (a : ℕ) :
    outcome (b :: outcomes) (a + 1) = outcome outcomes a := rfl

theorem outcome_drop (outcomes : List Bool) (i a : ℕ) :
    outcome (outcomes.drop i) a = outcome outcomes (i + a) := by
  unfold outcome
  rw [List.getD_eq_getElem?_getD, List.getD_eq_getElem?_getD, List.getElem?_drop]

/-! ## Registers -/

/-- Registers with the lengths `g.1` of the history and `g.2` of the fold. -/
def folded (f : ℕ → Bool) (geometry : List (ℕ × ℕ)) : List FoldedHistory :=
  geometry.map fun g => ⟨word f g.1 g.2, g.2, g.1, g.1 % g.2⟩

/-- The values of the registers. -/
def values (f : ℕ → Bool) (geometry : List (ℕ × ℕ)) : List (BitVec 32) :=
  geometry.map fun g => word f g.1 g.2

theorem map_comp_folded (f : ℕ → Bool) (geometry : List (ℕ × ℕ)) :
    (folded f geometry).map (·.comp) = values f geometry := by
  unfold folded values
  rw [List.map_map]
  rfl

theorem restore_folded (f f' : ℕ → Bool) (geometry : List (ℕ × ℕ)) :
    restore (folded f geometry) (values f' geometry) = folded f' geometry := by
  unfold restore folded values
  rw [List.zipWith_map, List.zipWith_self]

/-- A geometry whose registers can be updated. -/
def Fits (p : TAGEParams) (geometry : List (ℕ × ℕ)) : Prop :=
  ∀ g ∈ geometry, g.1 ≤ p.maxHist ∧ 0 < g.2 ∧ g.2 < 32

theorem setWidth_bit (b : Bool) : (bit b : BitVec 8).setWidth 32 = bit b := by
  cases b <;> rfl

variable {f g : ℕ → Bool} {p : TAGEParams} {t : ThreadHistory} {s : Thread} {outcomes : List Bool}

theorem update_folded (hg : ∀ a, g (a + 1) = f a) {n L : ℕ} (hpos : 0 < L) (hL : L < 32)
    {h : ℤ → Except TageFail (BitVec 8)} (h0 : h 0 = .ok (bit (g 0))) (hn : h n = .ok (bit (g n))) :
    FoldedHistory.update ⟨word f n L, L, n, n % L⟩ h = .ok ⟨word g n L, L, n, n % L⟩ := by
  unfold FoldedHistory.update
  dsimp only [bind, Except.bind]
  rw [h0, hn]
  dsimp only
  rw [setWidth_bit, setWidth_bit]
  exact congrArg (fun c => Except.ok (FoldedHistory.mk c L n (n % L))) (shift_word hg n hpos hL)

/-- A step of a list of fallible computations that all succeed. -/
theorem mapM_ok {α β : Type} {f : α → Except TageFail β} {g : α → β} {l : List α}
    (h : ∀ a ∈ l, f a = .ok (g a)) : l.mapM f = .ok (l.map g) := by
  induction l with
  | nil => rfl
  | cons a l ih =>
    rw [List.mapM_cons, h a List.mem_cons_self, ih fun b hb => h b (List.mem_cons_of_mem a hb)]
    rfl

/-- **All registers of a kind.** -/
theorem mapM_update (hg : ∀ a, g (a + 1) = f a) {geometry : List (ℕ × ℕ)} (hfits : Fits p geometry)
    {h : ℤ → Except TageFail (BitVec 8)} (hh : ∀ a : ℕ, a ≤ p.maxHist → h a = .ok (bit (g a))) :
    (folded f geometry).mapM (fun r => r.update h) = .ok (folded g geometry) := by
  unfold folded
  rw [List.mapM_map]
  refine mapM_ok fun x hx => ?_
  obtain ⟨hle, hpos, hlt⟩ := hfits x hx
  exact update_folded hg hpos hlt (hh 0 (Nat.zero_le _)) (hh x.1 hle)

/-! ## The buffer -/

/-- The outcomes at a position of the buffer and behind it. -/
def Holds (p : TAGEParams) (tab : List (BitVec 8)) (pt : ℤ) (f : ℕ → Bool) : Prop :=
  ∀ a : ℕ, a ≤ p.maxHist → at_ tab (pt + a) = bit (f a)

/-- The pointer of the `i`-th latest branch when the one of the latest branch is `pt`. -/
def slot (p : TAGEParams) (pt : ℤ) (i : ℕ) : ℤ :=
  if pt + i < p.histBufferSize - p.maxHist then pt + i
  else pt + i - (p.histBufferSize - p.maxHist)

/-- A pointer of a thread. -/
structure Pointer (p : TAGEParams) (t : ThreadHistory) : Prop where
  length : t.globalHistory.length = p.histBufferSize
  same : t.gHist = t.ptGhist
  nonneg : 0 ≤ t.ptGhist
  lt : t.ptGhist < p.histBufferSize - p.maxHist

/-- The registers of a thread. -/
structure Registers (p : TAGEParams) (t : ThreadHistory) (f : ℕ → Bool) : Prop where
  indices : t.computeIndices = folded f (p.histLengths.zip p.logTagTableSizes)
  tags0 : t.computeTags0 = folded f (p.histLengths.zip p.tagTableTagWidths)
  tags1 : t.computeTags1 = folded f (p.histLengths.zip (p.tagTableTagWidths.map (· - 1)))

/-- Histories and tables that fit. -/
structure Geometry (p : TAGEParams) : Prop where
  size : p.maxHist * 2 < p.histBufferSize
  indices : Fits p (p.histLengths.zip p.logTagTableSizes)
  tags0 : Fits p (p.histLengths.zip p.tagTableTagWidths)
  tags1 : Fits p (p.histLengths.zip (p.tagTableTagWidths.map (· - 1)))

/-- A read inside the buffer. -/
theorem hist_ok (hp : Geometry p) (ht : Pointer p t) (hf : Holds p t.globalHistory t.ptGhist f)
    {a : ℕ} (ha : a ≤ p.maxHist) :
    t.hist a = .ok (bit (f a)) := by
  have hsize := hp.size
  have hlength := ht.length
  have hnonneg := ht.nonneg
  have hlt := ht.lt
  unfold ThreadHistory.hist
  rw [ht.same, read_ok _ (by omega) (by omega), hf a ha]

/-- **The registers after an outcome** has been put before those they have folded. -/
theorem update_ok (hp : Geometry p) (ht : Pointer p t) (hg : ∀ a, g (a + 1) = f a)
    (hf : Holds p t.globalHistory t.ptGhist g) (hr : Registers p t f) :
    ∃ t', t.update = .ok t' ∧ t'.globalHistory = t.globalHistory ∧ t'.gHist = t.gHist ∧
      t'.ptGhist = t.ptGhist ∧ Registers p t' g := by
  have hread : ∀ a : ℕ, a ≤ p.maxHist → t.hist a = .ok (bit (g a)) :=
    fun a ha => hist_ok hp ht hf ha
  refine ⟨{ t with
    computeIndices := folded g (p.histLengths.zip p.logTagTableSizes)
    computeTags0 := folded g (p.histLengths.zip p.tagTableTagWidths)
    computeTags1 := folded g (p.histLengths.zip (p.tagTableTagWidths.map (· - 1))) }, ?_,
    rfl, rfl, rfl, rfl, rfl, rfl⟩
  unfold ThreadHistory.update
  rw [hr.indices, hr.tags0, hr.tags1, mapM_update hg hp.indices hread]
  dsimp only [bind, Except.bind]
  rw [mapM_update hg hp.tags0 hread]
  dsimp only
  rw [mapM_update hg hp.tags1 hread]
  rfl

/-- **The copy of a roll-over.** -/
theorem copyBeginning_ok (hp : Geometry p) {tab : List (BitVec 8)}
    (hlen : tab.length = p.histBufferSize) :
    ∃ tab', copyBeginning p tab = .ok tab' ∧ tab'.length = p.histBufferSize ∧
      (∀ x : ℤ, x < p.histBufferSize - p.maxHist → at_ tab' x = at_ tab x) ∧
      ∀ a : ℕ, a < p.maxHist →
        at_ tab' (p.histBufferSize - p.maxHist + a) = at_ tab a := by
  have hsize := hp.size
  unfold copyBeginning
  refine foldlM_range (P := fun n (tab' : List (BitVec 8)) => tab'.length = p.histBufferSize ∧
      (∀ x : ℤ, x < p.histBufferSize - p.maxHist → at_ tab' x = at_ tab x) ∧
      ∀ a : ℕ, a < n → at_ tab' (p.histBufferSize - p.maxHist + a) = at_ tab a)
    ⟨hlen, fun _ _ => rfl, fun a ha => absurd ha (Nat.not_lt_zero a)⟩ ?_
  rintro i hi t ⟨hlen, hbelow, hcopied⟩
  obtain ⟨u, hu, hlen', hat⟩ := write_ok TageFail.outOfBounds (l := t)
    (i := p.histBufferSize - p.maxHist + i) (by omega) (by omega) (at_ t i)
  refine ⟨u, ?_, hlen'.trans hlen, fun x hx => ?_, fun a ha => ?_⟩
  · rw [read_ok _ (Int.natCast_nonneg i) (by omega)]
    exact hu
  · rw [hat, if_neg (by omega), hbelow x hx]
  · rw [hat]
    rcases Nat.lt_succ_iff_lt_or_eq.mp ha with hlt | rfl
    · rw [if_neg (by omega), hcopied a hlt]
    · rw [if_pos rfl, hbelow _ (by omega)]

/-- The first part of `updateGHist`: afterwards there is room below the pointer. -/
theorem rollOver_ok (hp : Geometry p) (ht : Pointer p t) (hf : Holds p t.globalHistory t.ptGhist f)
    :
    ∃ tab pt, rollOver p t = .ok { t with globalHistory := tab, ptGhist := pt, gHist := pt } ∧
      tab.length = p.histBufferSize ∧ 0 < pt ∧ pt ≤ p.histBufferSize - p.maxHist ∧
      (∀ i : ℕ, (i : ℤ) < p.histBufferSize - p.maxHist → slot p (pt - 1) (i + 1) =
        slot p t.ptGhist i) ∧
      (∀ a : ℕ, a < p.maxHist → at_ tab (pt + a) = bit (f a)) ∧
      ∀ x : ℤ, (t.ptGhist = 0 → x < p.histBufferSize - p.maxHist) →
        at_ tab x = at_ t.globalHistory x := by
  have hsize := hp.size
  have hlt := ht.lt
  by_cases hzero : t.ptGhist = 0
  · obtain ⟨tab, hcopy, hlen, hbelow, hcopied⟩ := copyBeginning_ok hp ht.length
    refine ⟨tab, p.histBufferSize - p.maxHist, ?_, hlen, by omega, le_rfl, fun i hi => ?_,
      fun a ha => ?_, fun x hx => hbelow x (hx hzero)⟩
    · unfold rollOver
      rw [if_pos hzero, hcopy]
      rfl
    · unfold slot
      rw [hzero]
      split_ifs <;> omega
    · have ha' := hf a ha.le
      rw [hzero, zero_add] at ha'
      rw [hcopied a ha, ha']
  · have hnonneg := ht.nonneg
    refine ⟨t.globalHistory, t.ptGhist, ?_, ht.length, by omega, by omega, fun i _ => ?_,
      fun a ha => hf a ha.le, fun x _ => rfl⟩
    · unfold rollOver
      rw [if_neg hzero]
      obtain ⟨-, hsame, -, -⟩ := ht
      cases t
      cases hsame
      rfl
    · unfold slot
      split_ifs <;> omega

/-- **Pushing an outcome.**  The pointer goes down, around the ring at the beginning of the buffer;
every other outcome stays, unless the copy of a roll-over has taken its place. -/
theorem updateGHist_ok (hp : Geometry p) (ht : Pointer p t) (hg : ∀ a, g (a + 1) = f a)
    (hf : Holds p t.globalHistory t.ptGhist f) :
    ∃ t', updateGHist p t (g 0) = .ok t' ∧ Pointer p t' ∧
      (∀ i : ℕ, (i : ℤ) < p.histBufferSize - p.maxHist →
        slot p t'.ptGhist (i + 1) = slot p t.ptGhist i) ∧
      Holds p t'.globalHistory t'.ptGhist g ∧
      (∀ x : ℤ, x ≠ t'.ptGhist → (t.ptGhist = 0 → x < p.histBufferSize - p.maxHist) →
        at_ t'.globalHistory x = at_ t.globalHistory x) ∧
      (∀ h, Registers p t h → Registers p t' h) := by
  obtain ⟨tab, pt, hroll, hlen, hpos, hle, hslot, hcopied, hframe⟩ := rollOver_ok hp ht hf
  obtain ⟨tab', hwrite, hlen', hat⟩ := write_ok TageFail.outOfBounds (l := tab) (i := pt - 1)
    (by omega) (by omega) (if g 0 then 1 else 0)
  refine ⟨{ t with globalHistory := tab', ptGhist := pt - 1, gHist := pt - 1 }, ?_,
    ⟨hlen'.trans hlen, rfl, by show 0 ≤ pt - 1; omega, by show pt - 1 < _; omega⟩, hslot,
    fun a ha => ?_, fun x hx hcopy => ?_, fun h hr => ⟨hr.indices, hr.tags0, hr.tags1⟩⟩
  · unfold updateGHist ThreadHistory.setOutcome
    rw [hroll]
    dsimp only [bind, Except.bind]
    rw [hwrite]
    rfl
  · show at_ tab' (pt - 1 + a) = _
    cases a with
    | zero =>
      rw [hat, if_pos (by omega)]
      rfl
    | succ a =>
      rw [hat, if_neg (by omega), hg, show pt - 1 + ((a + 1 : ℕ) : ℤ) = pt + a by omega]
      exact hcopied a ha
  · show at_ tab' x = _
    rw [hat, if_neg hx]
    exact hframe x hcopy

/-! ## Threads -/

/-- What the `i`-th latest branch has saved. -/
structure Saved (p : TAGEParams) (t : ThreadHistory) (f : ℕ → Bool) (i : ℕ) (bi : BranchInfo) :
    Prop where
  ptGhist : bi.ptGhist = slot p t.ptGhist i
  holds : Holds p t.globalHistory bi.ptGhist fun a => f (i + a)
  ci : bi.ci = values (fun a => f (i + 1 + a)) (p.histLengths.zip p.logTagTableSizes)
  ct0 : bi.ct0 = values (fun a => f (i + 1 + a)) (p.histLengths.zip p.tagTableTagWidths)
  ct1 : bi.ct1 =
    values (fun a => f (i + 1 + a)) (p.histLengths.zip (p.tagTableTagWidths.map (· - 1)))

/-- **A thread and its surviving outcomes.** -/
structure Tracks (p : TAGEParams) (s : Thread) (outcomes : List Bool) : Prop where
  pointer : Pointer p s.history
  holds : Holds p s.history.globalHistory s.history.ptGhist (outcome outcomes)
  registers : Registers p s.history (outcome outcomes)
  bound : s.inflight.length + 2 * p.maxHist < p.histBufferSize
  saved : ∀ i (hi : i < s.inflight.length), Saved p s.history (outcome outcomes) i s.inflight[i]

/-- **A speculative update.** -/
theorem updateHistories_ok (hp : Geometry p) (hspec : p.speculativeHistUpdate = true)
    (ht : Pointer p t) (hg : ∀ a, g (a + 1) = f a) (hf : Holds p t.globalHistory t.ptGhist f)
    (hr : Registers p t f) (branch_pc : BitVec 64) :
    ∃ t' bi, updateHistories p t branch_pc (g 0) .new true = .ok (t', bi) ∧ Pointer p t' ∧
      (∀ i : ℕ, (i : ℤ) < p.histBufferSize - p.maxHist →
        slot p t'.ptGhist (i + 1) = slot p t.ptGhist i) ∧
      Holds p t'.globalHistory t'.ptGhist g ∧
      (∀ x : ℤ, x ≠ t'.ptGhist → (t.ptGhist = 0 → x < p.histBufferSize - p.maxHist) →
        at_ t'.globalHistory x = at_ t.globalHistory x) ∧
      Registers p t' g ∧ bi.ptGhist = t'.ptGhist ∧
      bi.ci = values f (p.histLengths.zip p.logTagTableSizes) ∧
      bi.ct0 = values f (p.histLengths.zip p.tagTableTagWidths) ∧
      bi.ct1 = values f (p.histLengths.zip (p.tagTableTagWidths.map (· - 1))) := by
  obtain ⟨t₁, hpush, hpointer, hslot, hholds, hframe, hregs⟩ := updateGHist_ok hp ht hg hf
  have hr₁ := hregs f hr
  unfold updateHistories
  rw [hspec, hpush]
  dsimp only [bind, Except.bind]
  generalize hpath : (t₁.pathHist <<< 1) + ((branch_pc >>> p.instShiftAmt) &&& 1).setWidth 32 =
    pathHist
  obtain ⟨t', hupdate, htab, hgHist, hptGhist, hr'⟩ := update_ok hp
    (t := { t₁ with pathHist := pathHist &&& BitVec.ofNat 32 (2 ^ p.pathHistBits - 1) })
    ⟨hpointer.length, hpointer.same, hpointer.nonneg, hpointer.lt⟩ hg hholds
    ⟨hr₁.indices, hr₁.tags0, hr₁.tags1⟩
  have hsame : t'.gHist = t'.ptGhist := hgHist.trans (hpointer.same.trans hptGhist.symm)
  refine ⟨t', { ptGhist := t₁.ptGhist
                pathHist := pathHist &&& BitVec.ofNat 32 (2 ^ p.pathHistBits - 1)
                ci := t₁.computeIndices.map (·.comp)
                ct0 := t₁.computeTags0.map (·.comp)
                ct1 := t₁.computeTags1.map (·.comp) }, ?_, ?_, ?_, ?_, ?_, hr', hptGhist.symm, ?_,
    ?_, ?_⟩
  · rw [hupdate]
    dsimp only
    rw [require_ok (decide_eq_true hsame)]
    rfl
  · exact ⟨htab ▸ hpointer.length, hsame, hptGhist ▸ hpointer.nonneg, hptGhist ▸ hpointer.lt⟩
  · rw [hptGhist]
    exact hslot
  · rw [htab, hptGhist]
    exact hholds
  · rw [htab, hptGhist]
    exact hframe
  · rw [hr₁.indices]
    exact map_comp_folded _ _
  · rw [hr₁.tags0]
    exact map_comp_folded _ _
  · rw [hr₁.tags1]
    exact map_comp_folded _ _

/-- A frame for what the branches have saved. -/
theorem Saved.frame {t' : ThreadHistory} {i j : ℕ} {bi : BranchInfo} (h : Saved p t f i bi)
    (hslot : slot p t'.ptGhist j = slot p t.ptGhist i) (hfg : ∀ a, g (j + a) = f (i + a))
    (hat : ∀ a : ℕ, a ≤ p.maxHist →
      at_ t'.globalHistory (bi.ptGhist + a) = at_ t.globalHistory (bi.ptGhist + a)) :
    Saved p t' g j bi := by
  have hnext : (fun a => g (j + 1 + a)) = fun a => f (i + 1 + a) := funext fun a => by
    rw [Nat.add_assoc, hfg, Nat.add_assoc]
  refine ⟨h.ptGhist.trans hslot.symm, fun a ha => ?_, hnext ▸ h.ci, hnext ▸ h.ct0, hnext ▸ h.ct1⟩
  exact ((hat a ha).trans (h.holds a ha)).trans (congrArg bit (hfg a).symm)

/-- **A predicted branch.** -/
theorem Tracks.predict (hp : Geometry p) (hspec : p.speculativeHistUpdate = true)
    (h : Tracks p s outcomes) (branch_pc : BitVec 64) (taken : Bool)
    (hroom : s.inflight.length + 1 + 2 * p.maxHist < p.histBufferSize) :
    ∃ s', s.step p (.predict branch_pc taken) = .ok s' ∧ Tracks p s' (taken :: outcomes) := by
  obtain ⟨t', bi, hupdate, hpointer, hslot, hholds, hframe, hregs, hpt, hci, hct0, hct1⟩ :=
    updateHistories_ok hp hspec h.pointer (g := outcome (taken :: outcomes)) (fun _ => rfl) h.holds
      h.registers branch_pc
  have hsize := hp.size
  have hnonneg := h.pointer.nonneg
  have hlt := h.pointer.lt
  have hslot0 : slot p t'.ptGhist 0 = t'.ptGhist := by
    have hlt' := hpointer.lt
    unfold slot
    rw [if_pos (by omega)]
    omega
  refine ⟨⟨t', bi :: s.inflight⟩, ?_, hpointer, hholds, hregs, hroom, fun i hi => ?_⟩
  · unfold Thread.step
    dsimp only [bind, Except.bind]
    rw [show updateHistories p s.history branch_pc taken .new true = .ok (t', bi) from hupdate]
    rfl
  · cases i with
    | zero =>
      have hnext : (fun a => outcome (taken :: outcomes) (0 + 1 + a)) = outcome outcomes :=
        funext fun a => by rw [Nat.zero_add, Nat.add_comm 1 a, outcome_cons_succ]
      refine ⟨hpt.trans hslot0.symm, fun a ha => ?_, hnext ▸ hci, hnext ▸ hct0, hnext ▸ hct1⟩
      show at_ t'.globalHistory (bi.ptGhist + a) = bit (outcome (taken :: outcomes) (0 + a))
      rw [Nat.zero_add, hpt]
      exact hholds a ha
    | succ i =>
      have hi' : i < s.inflight.length := Nat.lt_of_succ_lt_succ hi
      have hsaved := h.saved i hi'
      -- the new outcome goes below the old pointer, or to the end of the ring
      have hnew : t'.ptGhist = s.history.ptGhist - 1 ∨
          s.history.ptGhist = 0 ∧ t'.ptGhist = p.histBufferSize - p.maxHist - 1 := by
        have hlt' := hpointer.lt
        have hone := hslot 0 (by omega)
        unfold slot at hone
        split_ifs at hone <;> omega
      have hpt' := hsaved.ptGhist
      unfold slot at hpt'
      refine hsaved.frame (hslot i (by omega)) (fun a => ?_)
        fun a ha => hframe _ ?_ fun hzero => ?_
      · rw [show i + 1 + a = i + a + 1 by omega, outcome_cons_succ]
      · split_ifs at hpt' <;> omega
      · split_ifs at hpt' <;> omega

/-- **The outcome of a branch is corrected**, with the history restored to what the branch has
saved.  Later branches are gone. -/
theorem Tracks.correct (hp : Geometry p) (h : Tracks p s outcomes) {i : ℕ}
    (hi : i < s.inflight.length) (taken : Bool) (pathHist : BitVec 32) :
    ∃ t₁ t', ThreadHistory.setOutcome { s.history with
        pathHist := pathHist
        ptGhist := s.inflight[i].ptGhist
        gHist := s.inflight[i].ptGhist } taken = .ok t₁ ∧
      (t₁.restoreFrom s.inflight[i]).update = .ok t' ∧
      Tracks p ⟨t', s.inflight.drop i⟩ (taken :: outcomes.drop (i + 1)) := by
  have hsize := hp.size
  have hbound := h.bound
  have hnonneg := h.pointer.nonneg
  have hlt := h.pointer.lt
  have hsaved := h.saved i hi
  generalize hbi : s.inflight[i] = bi at hsaved
  have hpt := hsaved.ptGhist
  have hrange : 0 ≤ bi.ptGhist ∧ bi.ptGhist < p.histBufferSize - p.maxHist := by
    unfold slot at hpt
    split_ifs at hpt <;> omega
  have hold : ∀ a, outcome (taken :: outcomes.drop (i + 1)) (a + 1) =
      outcome outcomes (i + 1 + a) := fun a => by rw [outcome_cons_succ, outcome_drop]
  obtain ⟨tab, hwrite, hlen, hat⟩ := write_ok TageFail.outOfBounds
    (l := s.history.globalHistory) (i := bi.ptGhist) hrange.1 (by rw [h.pointer.length]; omega)
    (if taken then 1 else 0)
  have hholds : Holds p tab bi.ptGhist (outcome (taken :: outcomes.drop (i + 1))) := by
    intro a ha
    cases a with
    | zero =>
      rw [hat, if_pos (by omega)]
      rfl
    | succ a =>
      rw [hat, if_neg (by omega), hsaved.holds (a + 1) ha, hold]
      exact congrArg (fun b => bit (outcome outcomes b)) (by omega)
  have hpointer : Pointer p { s.history with
      pathHist := pathHist
      globalHistory := tab
      ptGhist := bi.ptGhist
      gHist := bi.ptGhist } :=
    ⟨hlen.trans h.pointer.length, rfl, hrange.1, hrange.2⟩
  have hregs := h.registers
  obtain ⟨t', hupdate, htab, hgHist, hptGhist, hr'⟩ := update_ok hp
    (t := ThreadHistory.restoreFrom { s.history with
      pathHist := pathHist
      globalHistory := tab
      ptGhist := bi.ptGhist
      gHist := bi.ptGhist } bi)
    ⟨hpointer.length, hpointer.same, hpointer.nonneg, hpointer.lt⟩ hold hholds
    ⟨by show restore _ _ = _; rw [hregs.indices, hsaved.ci, restore_folded],
      by show restore _ _ = _; rw [hregs.tags0, hsaved.ct0, restore_folded],
      by show restore _ _ = _; rw [hregs.tags1, hsaved.ct1, restore_folded]⟩
  refine ⟨_, t', ?_, hupdate, ⟨?_, ?_, ?_, ?_⟩, ?_, hr', ?_, fun j hj => ?_⟩
  · unfold ThreadHistory.setOutcome
    dsimp only [bind, Except.bind]
    rw [hwrite]
    rfl
  · rw [htab]
    exact hpointer.length
  · exact hgHist.trans hptGhist.symm
  · rw [hptGhist]
    exact hrange.1
  · rw [hptGhist]
    exact hrange.2
  · rw [htab, hptGhist]
    exact hholds
  · rw [List.length_drop]
    omega
  · have hj' : i + j < s.inflight.length := by
      have hj : j < (s.inflight.drop i).length := hj
      rw [List.length_drop] at hj
      omega
    rw [List.getElem_drop]
    cases j with
    | zero =>
      have hnext : (fun a => outcome (taken :: outcomes.drop (i + 1)) (0 + 1 + a)) =
          fun a => outcome outcomes (i + 1 + a) := funext fun a => by
        rw [Nat.zero_add, Nat.add_comm 1 a, hold]
      have hslot : slot p t'.ptGhist 0 = bi.ptGhist := by
        rw [hptGhist]
        show slot p bi.ptGhist 0 = bi.ptGhist
        unfold slot
        rw [if_pos (by omega)]
        omega
      rw [show s.inflight[i + 0] = bi from hbi]
      refine ⟨hslot.symm, fun a ha => ?_, hnext ▸ hsaved.ci, hnext ▸ hsaved.ct0,
        hnext ▸ hsaved.ct1⟩
      rw [htab]
      show at_ tab (bi.ptGhist + a) = bit (outcome (taken :: outcomes.drop (i + 1)) (0 + a))
      rw [Nat.zero_add]
      exact hholds a ha
    | succ j =>
      have hother := h.saved (i + (j + 1)) hj'
      have hpt' := hother.ptGhist
      refine hother.frame ?_ (fun a => ?_) fun a ha => ?_
      · rw [hptGhist]
        show slot p bi.ptGhist (j + 1) = slot p s.history.ptGhist (i + (j + 1))
        unfold slot at hpt ⊢
        split_ifs at hpt ⊢ <;> omega
      · rw [show j + 1 + a = j + a + 1 by omega, hold]
        exact congrArg (outcome outcomes) (by omega)
      · -- the corrected outcome lies outside what older branches need
        rw [htab]
        show at_ tab (_ + a) = _
        rw [hat, if_neg]
        unfold slot at hpt hpt'
        split_ifs at hpt hpt' <;> omega

/-- The oldest branch retires. -/
theorem Tracks.retire (h : Tracks p s outcomes) :
    Tracks p { s with inflight := s.inflight.dropLast } outcomes := by
  have hlen : s.inflight.dropLast.length ≤ s.inflight.length := by
    rw [List.length_dropLast]
    exact Nat.sub_le _ _
  refine ⟨h.pointer, h.holds, h.registers, ?_, fun i hi => ?_⟩
  · have hbound := h.bound
    show s.inflight.dropLast.length + _ < _
    omega
  · show Saved p s.history (outcome outcomes) i s.inflight.dropLast[i]
    rw [List.getElem_dropLast]
    exact h.saved i (lt_of_lt_of_le hi hlen)

/-- **The condition on an action**: it is about a branch that is not retired, and the number of
these branches stays below the room that the buffer has beside two histories. -/
def Possible (p : TAGEParams) (s : Thread) : Action → Prop
  | .predict _ _ => s.inflight.length + 1 < p.histBufferSize - 2 * p.maxHist
  | .btbUpdate => 0 < s.inflight.length
  | .squash i _ => i < s.inflight.length
  | .retire => 0 < s.inflight.length

theorem squash_eq (hspec : p.speculativeHistUpdate = true) {t₁ t' : ThreadHistory} {taken : Bool}
    {bi : BranchInfo} (hset : ThreadHistory.setOutcome { t with
      pathHist := bi.pathHist
      ptGhist := bi.ptGhist
      gHist := bi.ptGhist } taken = .ok t₁) (hupdate : (t₁.restoreFrom bi).update = .ok t') :
    TAGE.squash p t taken bi = .ok t' := by
  unfold TAGE.squash
  rw [hspec]
  dsimp only [bind, Except.bind]
  rw [show ThreadHistory.setOutcome _ taken = .ok t₁ from hset]
  exact hupdate

theorem btbUpdate_eq (hspec : p.speculativeHistUpdate = true) {t₁ t' : ThreadHistory}
    {bi : BranchInfo} (hsame : t.gHist = t.ptGhist) (hpt : bi.ptGhist = t.ptGhist)
    (hset : ThreadHistory.setOutcome { t with
      pathHist := t.pathHist
      ptGhist := bi.ptGhist
      gHist := bi.ptGhist } false = .ok t₁) (hupdate : (t₁.restoreFrom bi).update = .ok t') :
    TAGE.btbUpdate p t bi = .ok t' := by
  unfold TAGE.btbUpdate
  rw [hspec, require_ok (decide_eq_true hsame)]
  dsimp only [bind, Except.bind]
  have ht : t.setOutcome false = .ok t₁ := by
    rw [← hset, hpt]
    cases t
    cases hsame
    rfl
  rw [if_pos rfl, ht]
  exact hupdate

/-- **One step.** -/
theorem Tracks.step (hp : Geometry p) (hspec : p.speculativeHistUpdate = true)
    (h : Tracks p s outcomes) {a : Action} (ha : Possible p s a) :
    ∃ s', s.step p a = .ok s' ∧ Tracks p s' (survive outcomes a) := by
  cases a with
  | predict branch_pc taken =>
    have ha : s.inflight.length + 1 < p.histBufferSize - 2 * p.maxHist := ha
    exact h.predict hp hspec branch_pc taken (by omega)
  | btbUpdate =>
    have ha : 0 < s.inflight.length := ha
    obtain ⟨t₁, t', hset, hupdate, htracks⟩ := h.correct hp ha false s.history.pathHist
    have hpt : s.inflight[0].ptGhist = s.history.ptGhist := by
      have hlt := h.pointer.lt
      rw [(h.saved 0 ha).ptGhist]
      unfold slot
      rw [if_pos (by omega)]
      omega
    rw [List.drop_zero] at htracks
    refine ⟨_, ?_, htracks⟩
    unfold Thread.step
    dsimp only
    rw [List.head?_eq_getElem?, List.getElem?_eq_getElem ha]
    dsimp only [bind, Except.bind, orFail]
    rw [btbUpdate_eq hspec h.pointer.same hpt hset hupdate]
    rfl
  | squash i taken =>
    have ha : i < s.inflight.length := ha
    obtain ⟨t₁, t', hset, hupdate, htracks⟩ :=
      h.correct hp ha taken s.inflight[i].pathHist
    refine ⟨_, ?_, htracks⟩
    unfold Thread.step
    dsimp only
    rw [List.getElem?_eq_getElem ha]
    dsimp only [bind, Except.bind, orFail]
    rw [squash_eq hspec hset hupdate]
    rfl
  | retire => exact ⟨_, rfl, h.retire⟩

/-! ## Runs -/

/-- The actions of one thread. -/
def ofThread {n : ℕ} (tid : Fin n) (as : List (Fin n × Action)) : List Action :=
  (as.filter fun a => a.1 = tid).map Prod.snd

/-- **The direct fold.**  The registers of a thread against its surviving outcomes. -/
structure Agrees (p : TAGEParams) (t : ThreadHistory) (outcomes : List Bool) : Prop where
  comp : ∀ r ∈ t.computeIndices ++ t.computeTags0 ++ t.computeTags1, ∀ j, r.comp.getLsbD j =
    (decide (j < r.compLength) && fold (outcome outcomes) r.compLength j r.origLength)
  indices : t.computeIndices.map (fun r => (r.origLength, r.compLength)) =
    p.histLengths.zip p.logTagTableSizes
  tags0 : t.computeTags0.map (fun r => (r.origLength, r.compLength)) =
    p.histLengths.zip p.tagTableTagWidths
  tags1 : t.computeTags1.map (fun r => (r.origLength, r.compLength)) =
    p.histLengths.zip (p.tagTableTagWidths.map (· - 1))
  gHist : ∀ a : ℕ, a < p.maxHist → t.hist a = .ok (if outcome outcomes a then 1 else 0)
  pointer : t.gHist = t.ptGhist

/-- Two tables over a buffer of eight outcomes. -/
def smallParams : TAGEParams where
  histBufferSize := 8
  maxHist := 2
  pathHistBits := 4
  instShiftAmt := 2
  nHistoryTables := 2
  histLengths := [1, 2]
  logTagTableSizes := [2, 1]
  tagTableTagWidths := [2, 3]
  speculativeHistUpdate := true

instance (p : TAGEParams) (s : Thread) : ∀ a, Decidable (Possible p s a)
  | .predict _ _ => inferInstanceAs (Decidable (_ < _))
  | .btbUpdate => inferInstanceAs (Decidable (_ < _))
  | .squash _ _ => inferInstanceAs (Decidable (_ < _))
  | .retire => inferInstanceAs (Decidable (_ < _))

end Gem5.BranchPrediction.TAGE
