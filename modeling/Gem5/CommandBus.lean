/-
# The command bus of a memory controller

Embedding of `pruneBurstTick`, `getBurstWindow`, `verifySingleCmd` and `verifyMultiCmd` of `MemCtrl`
(`mem/mem_ctrl.cc`).  Time is divided into command windows, and `burstTicks` holds one entry for
each command that has been given a slot: the tick at which its window begins.
-/
import Gem5.Loop
import Mathlib

open Loop

namespace Gem5.Mem.CommandBus

/-! ## The functions of the controller -/

/-- `pruneBurstTick()` -/
def pruneBurstTick (burstTicks : Multiset ℕ) (curTick : ℕ) : Multiset ℕ :=
  burstTicks.filter fun burstTick => ¬ curTick > burstTick

/-- `getBurstWindow(cmd_tick)` -/
def getBurstWindow (commandWindow cmdTick : ℕ) : ℕ := cmdTick - cmdTick % commandWindow

/-- The variables of `verifySingleCmd`. -/
structure SingleSearch where
  cmdAt : ℕ
  burstTick : ℕ
  deriving DecidableEq, Repr

/-- The loop of `verifySingleCmd`. -/
def singleRound (commandWindow maxCmdsPerBurst : ℕ) (burstTicks : Multiset ℕ) (s : SingleSearch) :
    SingleSearch ⊕ SingleSearch :=
  if burstTicks.count s.burstTick ≥ maxCmdsPerBurst then
    .inl ⟨s.burstTick + commandWindow, s.burstTick + commandWindow⟩
  else .inr s

/-- `verifySingleCmd(cmd_tick, max_cmds_per_burst)` up to the insertion: the tick that it returns
and the window of the command. -/
def VerifySingleCmd (commandWindow maxCmdsPerBurst : ℕ) (burstTicks : Multiset ℕ) (cmdTick : ℕ) :
    SingleSearch → Prop :=
  Yields (singleRound commandWindow maxCmdsPerBurst burstTicks)
    ⟨cmdTick, getBurstWindow commandWindow cmdTick⟩

/-- The loop of `verifyMultiCmd` that looks for the earliest window of the first command. -/
def offsetRound (commandWindow maxMultiCmdSplit firstCmdOffset burstOffset : ℕ) : ℕ ⊕ ℕ :=
  if maxMultiCmdSplit > firstCmdOffset + burstOffset then .inl (burstOffset + commandWindow)
  else .inr burstOffset

/-- The variables of `verifyMultiCmd`. -/
structure MultiSearch where
  cmdAt : ℕ
  burstTick : ℕ
  firstCmdTick : ℕ
  deriving DecidableEq, Repr

/-- The loop of `verifyMultiCmd` that looks for the two slots; it ends with the first round in which
both commands can issue, and that round changes nothing. -/
def multiRound (commandWindow maxCmdsPerBurst maxMultiCmdSplit : ℕ) (burstTicks : Multiset ℕ)
    (s : MultiSearch) : MultiSearch ⊕ MultiSearch :=
  let sameBurst : Bool := s.burstTick = s.firstCmdTick
  let firstCmdCount := burstTicks.count s.firstCmdTick
  let secondCmdCount :=
    if sameBurst then firstCmdCount + 1 else burstTicks.count s.burstTick
  let firstCanIssue : Bool := firstCmdCount < maxCmdsPerBurst
  let secondCanIssue : Bool := secondCmdCount < maxCmdsPerBurst
  let burstTick := if !secondCanIssue then s.burstTick + commandWindow else s.burstTick
  let cmdAt := if !secondCanIssue then burstTick else s.cmdAt
  let gapViolated : Bool := !sameBurst && decide (burstTick - s.firstCmdTick > maxMultiCmdSplit)
  let firstCmdTick :=
    if !firstCanIssue || (!secondCanIssue && gapViolated) then s.firstCmdTick + commandWindow
    else s.firstCmdTick
  if firstCanIssue && secondCanIssue then .inr s else .inl ⟨cmdAt, burstTick, firstCmdTick⟩

/-- The earliest window of the first command, for the offset that the first loop finds. -/
def earliestFirst (commandWindow cmdTick burstOffset : ℕ) : ℕ :=
  let burstTick := getBurstWindow commandWindow cmdTick
  burstTick - min burstOffset burstTick

/-- The offset that the first loop of `verifyMultiCmd` finds. -/
def BurstOffset (commandWindow maxMultiCmdSplit cmdTick : ℕ) : ℕ → Prop :=
  Yields (offsetRound commandWindow maxMultiCmdSplit (cmdTick % commandWindow)) 0

/-- `verifyMultiCmd(cmd_tick, max_cmds_per_burst, max_multi_cmd_split)` up to the insertions: the
tick that it returns and the windows of both commands. -/
def VerifyMultiCmd (commandWindow maxCmdsPerBurst : ℕ) (burstTicks : Multiset ℕ)
    (cmdTick maxMultiCmdSplit : ℕ) (r : MultiSearch) : Prop :=
  ∃ burstOffset, BurstOffset commandWindow maxMultiCmdSplit cmdTick burstOffset ∧
    Yields (multiRound commandWindow maxCmdsPerBurst maxMultiCmdSplit burstTicks)
      ⟨cmdTick, getBurstWindow commandWindow cmdTick,
        earliestFirst commandWindow cmdTick burstOffset⟩ r

/-! ## Runs -/

/-- The state of the bus.  `assigned` is a history that the source does not keep: the window of
every command that has been given a slot. -/
structure Bus where
  curTick : ℕ := 0
  burstTicks : Multiset ℕ := 0
  assigned : Multiset ℕ := 0
  deriving DecidableEq

/-- What happens on the bus. -/
inductive Op where
  | advance (tick : ℕ)
  | pruneBurstTick
  | verifySingleCmd (cmdTick : ℕ)
  | verifyMultiCmd (cmdTick maxMultiCmdSplit : ℕ)
  deriving DecidableEq, Repr

/-- The bus after slots in the windows `ws` have been given out. -/
def Bus.insert (s : Bus) (ws : Multiset ℕ) : Bus :=
  { s with burstTicks := ws + s.burstTicks, assigned := ws + s.assigned }

/-- One operation: time does not run backwards, and no command is requested for the past. -/
inductive Step (commandWindow maxCmdsPerBurst : ℕ) : Bus → Op → Bus → Prop
  | advance (s : Bus) (tick : ℕ) (h : s.curTick ≤ tick) :
      Step commandWindow maxCmdsPerBurst s (.advance tick) { s with curTick := tick }
  | pruneBurstTick (s : Bus) :
      Step commandWindow maxCmdsPerBurst s .pruneBurstTick
        { s with burstTicks := CommandBus.pruneBurstTick s.burstTicks s.curTick }
  | verifySingleCmd (s : Bus) (cmdTick : ℕ) (r : SingleSearch) (h : s.curTick ≤ cmdTick)
      (hr : VerifySingleCmd commandWindow maxCmdsPerBurst s.burstTicks cmdTick r) :
      Step commandWindow maxCmdsPerBurst s (.verifySingleCmd cmdTick) (s.insert {r.burstTick})
  | verifyMultiCmd (s : Bus) (cmdTick maxMultiCmdSplit : ℕ) (r : MultiSearch)
      (h : s.curTick ≤ cmdTick)
      (hr : VerifyMultiCmd commandWindow maxCmdsPerBurst s.burstTicks cmdTick
        maxMultiCmdSplit r) :
      Step commandWindow maxCmdsPerBurst s (.verifyMultiCmd cmdTick maxMultiCmdSplit)
        (s.insert {r.burstTick, r.firstCmdTick})

/-- No command of a window from `w` on has been forgotten. -/
def RememberedFrom (s : Bus) (w : ℕ) : Prop :=
  ∀ v, w ≤ v → s.burstTicks.count v = s.assigned.count v

/-- **No command of a window that the operation looks at has been forgotten**: the searches look at
no window before the one that they start from. -/
def Remembered (commandWindow : ℕ) (s : Bus) : Op → Prop
  | .advance _ => True
  | .pruneBurstTick => True
  | .verifySingleCmd cmdTick => RememberedFrom s (getBurstWindow commandWindow cmdTick)
  | .verifyMultiCmd cmdTick maxMultiCmdSplit =>
      ∀ burstOffset, BurstOffset commandWindow maxMultiCmdSplit cmdTick burstOffset →
        RememberedFrom s (earliestFirst commandWindow cmdTick burstOffset)

/-- A state reached by operations that all meet a condition in the state they are applied in. -/
def Reached (commandWindow maxCmdsPerBurst : ℕ) (adm : Bus → Op → Prop) : Bus → Prop :=
  Relation.ReflTransGen
    (fun s s' => ∃ op, adm s op ∧ Step commandWindow maxCmdsPerBurst s op s') {}

/-- **What a call promises in a state**: it ends, with a tick that is not before the requested one
and with the first command of a pair in no later window than the second. -/
def Served (commandWindow maxCmdsPerBurst : ℕ) (burstTicks : Multiset ℕ) (cmdTick : ℕ) : Prop :=
  (∃ r, VerifySingleCmd commandWindow maxCmdsPerBurst burstTicks cmdTick r ∧ cmdTick ≤ r.cmdAt) ∧
    ∀ maxMultiCmdSplit, ∃ r,
      VerifyMultiCmd commandWindow maxCmdsPerBurst burstTicks cmdTick maxMultiCmdSplit r ∧
        cmdTick ≤ r.cmdAt ∧ r.firstCmdTick ≤ r.burstTick

/-! ## The search for one slot -/

theorem dvd_getBurstWindow (commandWindow cmdTick : ℕ) :
    commandWindow ∣ getBurstWindow commandWindow cmdTick := Nat.dvd_sub_mod cmdTick

theorem lt_getBurstWindow {commandWindow : ℕ} (h : 0 < commandWindow) (cmdTick : ℕ) :
    cmdTick < getBurstWindow commandWindow cmdTick + commandWindow := by
  have hmod := Nat.mod_lt cmdTick h
  have hle := Nat.mod_le cmdTick commandWindow
  unfold getBurstWindow
  omega

variable {m W cmdTick burstOffset start split : ℕ} {burstTicks : Multiset ℕ}

theorem singleRound_inl {s s' : SingleSearch} (h : singleRound W m burstTicks s = .inl s') :
    m ≤ burstTicks.count s.burstTick ∧ s' = ⟨s.burstTick + W, s.burstTick + W⟩ := by
  unfold singleRound at h
  split_ifs at h with hcount
  exact ⟨hcount, (Sum.inl.inj h).symm⟩

theorem singleRound_inr {s r : SingleSearch} (h : singleRound W m burstTicks s = .inr r) :
    burstTicks.count s.burstTick < m ∧ r = s := by
  unfold singleRound at h
  split_ifs at h with hcount
  exact ⟨not_le.mp hcount, (Sum.inr.inj h).symm⟩

/-- Every recorded window begins before some tick. -/
theorem exists_bound (burstTicks : Multiset ℕ) : ∃ B, ∀ w ∈ burstTicks, w < B := by
  refine ⟨burstTicks.sum + 1, fun w hw => ?_⟩
  have hle := Multiset.single_le_sum (fun _ _ => Nat.zero_le _) w hw
  omega

theorem mem_of_count {w : ℕ} (hm : 1 ≤ m) (h : m ≤ burstTicks.count w) : w ∈ burstTicks :=
  Multiset.count_pos.mp (by omega)

/-- **The search for one slot ends**: a window that it leaves is recorded. -/
theorem verifySingleCmd_ends (hW : 0 < W) (hm : 1 ≤ m) (burstTicks : Multiset ℕ) (cmdTick : ℕ) :
    ∃ r, VerifySingleCmd W m burstTicks cmdTick r := by
  obtain ⟨B, hB⟩ := exists_bound burstTicks
  refine yields_of_measure (P := fun _ => True) (fun s => B - s.burstTick) ?_ trivial
  intro s s' _ hround
  obtain ⟨hcount, rfl⟩ := singleRound_inl hround
  have hlt := hB s.burstTick (mem_of_count hm hcount)
  refine ⟨trivial, ?_⟩
  simp only
  omega

/-- The slot that a search for one finds. -/
theorem verifySingleCmd_spec (hW : 0 < W) {r : SingleSearch}
    (h : VerifySingleCmd W m burstTicks cmdTick r) :
    burstTicks.count r.burstTick < m ∧ getBurstWindow W cmdTick ≤ r.burstTick ∧
      cmdTick ≤ r.cmdAt := by
  have hstart : getBurstWindow W cmdTick ≤ getBurstWindow W cmdTick ∧ cmdTick ≤ cmdTick ∧
      cmdTick < getBurstWindow W cmdTick + W := ⟨le_rfl, le_rfl, lt_getBurstWindow hW cmdTick⟩
  refine Yields.invariant (P := fun s => getBurstWindow W cmdTick ≤ s.burstTick ∧
      cmdTick ≤ s.cmdAt ∧ cmdTick < s.burstTick + W)
    (Q := fun r => burstTicks.count r.burstTick < m ∧ getBurstWindow W cmdTick ≤ r.burstTick ∧
      cmdTick ≤ r.cmdAt) ?_ ?_ h hstart
  · rintro s s' ⟨hfrom, hat, hnext⟩ hround
    obtain ⟨-, rfl⟩ := singleRound_inl hround
    simp only
    omega
  · rintro s r ⟨hfrom, hat, -⟩ hround
    obtain ⟨hcount, rfl⟩ := singleRound_inr hround
    exact ⟨hcount, hfrom, hat⟩

/-! ## The search for two slots -/

theorem burstOffset_ends (hW : 0 < W) (maxMultiCmdSplit cmdTick : ℕ) :
    ∃ burstOffset, BurstOffset W maxMultiCmdSplit cmdTick burstOffset := by
  refine yields_of_measure (P := fun _ => True) (fun off => maxMultiCmdSplit - off) ?_ trivial
  intro off off' _ hround
  unfold offsetRound at hround
  split_ifs at hround with hgap
  obtain rfl := Sum.inl.inj hround
  refine ⟨trivial, ?_⟩
  omega

theorem dvd_burstOffset {maxMultiCmdSplit : ℕ}
    (h : BurstOffset W maxMultiCmdSplit cmdTick burstOffset) : W ∣ burstOffset := by
  refine h.invariant (P := fun off => W ∣ off) ?_ ?_ (Nat.dvd_zero W)
  · intro off off' hoff hround
    unfold offsetRound at hround
    split_ifs at hround
    obtain rfl := Sum.inl.inj hround
    exact Nat.dvd_add hoff (Nat.dvd_refl W)
  · intro off off' hoff hround
    unfold offsetRound at hround
    split_ifs at hround
    obtain rfl := Sum.inr.inj hround
    exact hoff

theorem dvd_earliestFirst (h : W ∣ burstOffset) :
    W ∣ earliestFirst W cmdTick burstOffset := by
  have hw := dvd_getBurstWindow W cmdTick
  change W ∣ getBurstWindow W cmdTick - min burstOffset (getBurstWindow W cmdTick)
  rcases Nat.le_total burstOffset (getBurstWindow W cmdTick) with hle | hle
  · rw [Nat.min_eq_left hle]
    exact Nat.dvd_sub hw h
  · rw [Nat.min_eq_right hle]
    simp

/-- **Where the search for two slots is**: at two windows, the first not after the second. -/
structure Searching (W start cmdTick : ℕ) (s : MultiSearch) : Prop where
  from_start : start ≤ s.firstCmdTick
  first_le : s.firstCmdTick ≤ s.burstTick
  dvd_first : W ∣ s.firstCmdTick
  dvd_burst : W ∣ s.burstTick
  at_le : cmdTick ≤ s.cmdAt
  before_next : cmdTick < s.burstTick + W

theorem Searching.initial (cmdTick : ℕ) (hW : 0 < W) (h : W ∣ burstOffset) :
    Searching W (earliestFirst W cmdTick burstOffset) cmdTick
      ⟨cmdTick, getBurstWindow W cmdTick, earliestFirst W cmdTick burstOffset⟩ where
  from_start := le_rfl
  first_le := Nat.sub_le _ _
  dvd_first := dvd_earliestFirst h
  dvd_burst := dvd_getBurstWindow W cmdTick
  at_le := le_rfl
  before_next := lt_getBurstWindow hW cmdTick

/-- Different windows are at least a window apart. -/
theorem Searching.gap {s : MultiSearch} (h : Searching W start cmdTick s)
    (hne : s.burstTick ≠ s.firstCmdTick) : s.firstCmdTick + W ≤ s.burstTick := by
  have hlt : s.firstCmdTick < s.burstTick := lt_of_le_of_ne h.first_le hne.symm
  have hdvd : W ∣ s.burstTick - s.firstCmdTick := Nat.dvd_sub h.dvd_burst h.dvd_first
  have hle := Nat.le_of_dvd (by omega) hdvd
  omega

/-- What a round that does not end the search does: the second command moves on from a window where
it cannot issue, perhaps with the first, or the first moves on alone from a full window. -/
theorem multiRound_inl {s s' : MultiSearch} (h : multiRound W m split burstTicks s = .inl s') :
    ((s.burstTick = s.firstCmdTick ∨ m ≤ burstTicks.count s.burstTick) ∧
        s' = ⟨s.burstTick + W, s.burstTick + W, s.firstCmdTick⟩) ∨
      (m ≤ burstTicks.count s.burstTick ∧
        s' = ⟨s.burstTick + W, s.burstTick + W, s.firstCmdTick + W⟩) ∨
      (m ≤ burstTicks.count s.firstCmdTick ∧ s.burstTick ≠ s.firstCmdTick ∧
        s' = ⟨s.cmdAt, s.burstTick, s.firstCmdTick + W⟩) := by
  unfold multiRound at h
  by_cases hsame : s.burstTick = s.firstCmdTick
  · rcases Nat.lt_or_ge (burstTicks.count s.firstCmdTick) m with hfirst | hfirst
    · rcases Nat.lt_or_ge (burstTicks.count s.firstCmdTick + 1) m with hsecond | hsecond
      · simp [hsame, hfirst, hsecond] at h
      · exact .inl ⟨.inl hsame, by simpa [hsame, hfirst, hsecond, hsecond.not_gt] using h.symm⟩
    · have hsecond : m ≤ burstTicks.count s.firstCmdTick + 1 := by omega
      refine .inr (.inl ⟨by rwa [hsame], ?_⟩)
      simpa [hsame, hfirst, hsecond, hfirst.not_gt, hsecond.not_gt] using h.symm
  · rcases Nat.lt_or_ge (burstTicks.count s.burstTick) m with hsecond | hsecond
    · rcases Nat.lt_or_ge (burstTicks.count s.firstCmdTick) m with hfirst | hfirst
      · simp [hsame, hfirst, hsecond] at h
      · refine .inr (.inr ⟨hfirst, hsame, ?_⟩)
        simpa [hsame, hfirst, hsecond, hfirst.not_gt, hsecond.not_ge] using h.symm
    · by_cases hmoves : m ≤ burstTicks.count s.firstCmdTick ∨
          split < s.burstTick + W - s.firstCmdTick
      · refine .inr (.inl ⟨hsecond, ?_⟩)
        simpa [hsame, hsecond, hsecond.not_gt, hmoves] using h.symm
      · refine .inl ⟨.inr hsecond, ?_⟩
        simpa [hsame, hsecond, hsecond.not_gt, hmoves] using h.symm

/-- A search ends with room for both commands, in their two windows or in the one. -/
theorem multiRound_inr {s r : MultiSearch} (h : multiRound W m split burstTicks s = .inr r) :
    r = s ∧ burstTicks.count s.firstCmdTick < m ∧ burstTicks.count s.burstTick < m ∧
      (s.burstTick = s.firstCmdTick → burstTicks.count s.firstCmdTick + 1 < m) := by
  unfold multiRound at h
  by_cases hsame : s.burstTick = s.firstCmdTick
  · by_cases hsecond : burstTicks.count s.firstCmdTick + 1 < m
    · have hfirst : burstTicks.count s.firstCmdTick < m := by omega
      have hr : r = s := by simpa [hsame, hfirst, hsecond] using h.symm
      refine ⟨hr, hfirst, ?_, fun _ => hsecond⟩
      rw [hsame]
      exact hfirst
    · simp [hsame, hsecond] at h
  · by_cases hfirst : burstTicks.count s.firstCmdTick < m
    · by_cases hsecond : burstTicks.count s.burstTick < m
      · have hr : r = s := by simpa [hsame, hfirst, hsecond] using h.symm
        exact ⟨hr, hfirst, hsecond, fun heq => absurd heq hsame⟩
      · simp [hsame, hfirst, hsecond] at h
    · simp [hsame, hfirst] at h

theorem Searching.round {s s' : MultiSearch} (h : Searching W start cmdTick s)
    (hround : multiRound W m split burstTicks s = .inl s') : Searching W start cmdTick s' := by
  obtain ⟨hstart, hle, hdvd, hdvd', hat, hnext⟩ := h
  have hgap := Searching.gap ⟨hstart, hle, hdvd, hdvd', hat, hnext⟩
  have hfirst : W ∣ s.firstCmdTick + W := Nat.dvd_add hdvd (Nat.dvd_refl W)
  have hburst : W ∣ s.burstTick + W := Nat.dvd_add hdvd' (Nat.dvd_refl W)
  rcases multiRound_inl hround with ⟨-, rfl⟩ | ⟨-, rfl⟩ | ⟨-, hne, rfl⟩
  · exact ⟨hstart, by simp only; omega, hdvd, hburst, by simp only; omega, by simp only; omega⟩
  · exact ⟨by simp only; omega, by simp only; omega, hfirst, hburst, by simp only; omega,
      by simp only; omega⟩
  · exact ⟨by simp only; omega, hgap hne, hfirst, hdvd', hat, hnext⟩

/-- **The search for two slots ends.**  The first command never gets more than a window beyond the
last recorded one, and the second never more than two. -/
theorem multiSearch_ends (hW : 0 < W) (hm : 1 ≤ m) (burstTicks : Multiset ℕ) (split : ℕ)
    {s : MultiSearch} (h : Searching W start cmdTick s) :
    ∃ r, Yields (multiRound W m split burstTicks) s r := by
  obtain ⟨bound, hbound⟩ := exists_bound burstTicks
  obtain ⟨B, hB, hfirst⟩ : ∃ B, (∀ w ∈ burstTicks, w < B) ∧ s.firstCmdTick < B + W :=
    ⟨bound + s.firstCmdTick, fun w hw => by have := hbound w hw; omega, by omega⟩
  refine yields_of_measure (P := fun s => Searching W start cmdTick s ∧ s.firstCmdTick < B + W)
    (fun s => (B + 2 * W - s.burstTick) + (B + 2 * W - s.firstCmdTick)) ?_ ⟨h, hfirst⟩
  rintro s s' ⟨hs, hlt⟩ hround
  have hs' := hs.round hround
  refine ⟨⟨hs', ?_⟩, ?_⟩
  · rcases multiRound_inl hround with ⟨-, rfl⟩ | ⟨hcount, rfl⟩ | ⟨hcount, -, rfl⟩
    · exact hlt
    · have hburst := hB _ (mem_of_count hm hcount)
      have hle := hs.first_le
      simp only
      omega
    · have hburst := hB _ (mem_of_count hm hcount)
      simp only
      omega
  · rcases multiRound_inl hround with ⟨hcount, rfl⟩ | ⟨hcount, rfl⟩ | ⟨hcount, -, rfl⟩
    · have hburst : s.burstTick < B + W := by
        rcases hcount with hsame | hcount
        · rw [hsame]
          exact hlt
        · exact Nat.lt_add_right W (hB _ (mem_of_count hm hcount))
      simp only
      omega
    · have hburst := hB _ (mem_of_count hm hcount)
      simp only
      omega
    · simp only
      omega

theorem verifyMultiCmd_ends (hW : 0 < W) (hm : 1 ≤ m) (burstTicks : Multiset ℕ) (cmdTick split : ℕ)
    :
    ∃ r, VerifyMultiCmd W m burstTicks cmdTick split r := by
  obtain ⟨burstOffset, hoffset⟩ := burstOffset_ends hW split cmdTick
  have hsearch := Searching.initial cmdTick hW (dvd_burstOffset hoffset)
  obtain ⟨r, hr⟩ := multiSearch_ends hW hm burstTicks split hsearch
  exact ⟨r, burstOffset, hoffset, hr⟩

/-- The two slots that a search finds. -/
theorem multiSearch_spec {s r : MultiSearch} (h : Yields (multiRound W m split burstTicks) s r)
    (hs : Searching W start cmdTick s) :
    Searching W start cmdTick r ∧ burstTicks.count r.firstCmdTick < m ∧
      burstTicks.count r.burstTick < m ∧
      (r.burstTick = r.firstCmdTick → burstTicks.count r.firstCmdTick + 1 < m) := by
  refine Yields.invariant (P := Searching W start cmdTick)
    (Q := fun r => Searching W start cmdTick r ∧ burstTicks.count r.firstCmdTick < m ∧
      burstTicks.count r.burstTick < m ∧
      (r.burstTick = r.firstCmdTick → burstTicks.count r.firstCmdTick + 1 < m)) ?_ ?_ h hs
  · intro s s' hs hround
    exact hs.round hround
  · intro s r hs hround
    obtain ⟨rfl, hcounts⟩ := multiRound_inr hround
    exact ⟨hs, hcounts⟩

/-- Every call ends, and its slots are in order. -/
theorem served (hW : 0 < W) (hm : 1 ≤ m) (burstTicks : Multiset ℕ) (cmdTick : ℕ) :
    Served W m burstTicks cmdTick := by
  constructor
  · obtain ⟨r, hr⟩ := verifySingleCmd_ends hW hm burstTicks cmdTick
    exact ⟨r, hr, (verifySingleCmd_spec hW hr).2.2⟩
  · intro split
    obtain ⟨r, burstOffset, hoffset, hr⟩ := verifyMultiCmd_ends hW hm burstTicks cmdTick split
    have hsearch := Searching.initial cmdTick hW (dvd_burstOffset hoffset)
    obtain ⟨hsearching, -⟩ := multiSearch_spec hr hsearch
    exact ⟨r, ⟨burstOffset, hoffset, hr⟩, hsearching.at_le, hsearching.first_le⟩

/-! ## Whole runs -/

/-- No window has been given out more often than there is room for. -/
def Bounded (m : ℕ) (s : Bus) : Prop := ∀ w, s.assigned.count w ≤ m

theorem Bounded.insert_one {w : ℕ} {s : Bus} (h : Bounded m s) (hroom : s.burstTicks.count w < m)
    (hremembered : s.burstTicks.count w = s.assigned.count w) : Bounded m (s.insert {w}) := by
  intro v
  have hv := h v
  simp only [Bus.insert, Multiset.count_add, Multiset.count_singleton]
  split_ifs with heq
  · subst heq
    omega
  · omega

theorem Bounded.insert_two {w v : ℕ} {s : Bus} (h : Bounded m s) (hw : s.burstTicks.count w < m)
    (hv : s.burstTicks.count v < m) (hsame : w = v → s.burstTicks.count v + 1 < m)
    (hwrem : s.burstTicks.count w = s.assigned.count w)
    (hvrem : s.burstTicks.count v = s.assigned.count v) : Bounded m (s.insert {w, v}) := by
  intro u
  have hu := h u
  simp only [Bus.insert, Multiset.count_add, Multiset.insert_eq_cons, Multiset.count_cons,
    Multiset.count_singleton]
  by_cases huw : u = w
  · by_cases huv : u = v
    · have hroom := hsame (huw.symm.trans huv)
      subst huv
      simp only [huw, if_true] at *
      omega
    · subst huw
      simp only [if_true, if_neg huv]
      omega
  · by_cases huv : u = v
    · subst huv
      simp only [if_true, if_neg huw]
      omega
    · simp only [if_neg huw, if_neg huv]
      omega

/-- **One operation keeps the bound** if no command of a window it looks at has been forgotten. -/
theorem Bounded.step (hW : 0 < W) {s s' : Bus} {op : Op} (h : Bounded m s)
    (hrem : Remembered W s op) (hstep : Step W m s op s') : Bounded m s' := by
  cases hstep with
  | advance tick _ => exact h
  | pruneBurstTick => exact h
  | verifySingleCmd cmdTick r _ hr =>
    obtain ⟨hroom, hfrom, -⟩ := verifySingleCmd_spec hW hr
    exact h.insert_one hroom (hrem _ hfrom)
  | verifyMultiCmd cmdTick split r _ hr =>
    obtain ⟨burstOffset, hoffset, hsearch⟩ := hr
    obtain ⟨hs, hfirst, hsecond, hsame⟩ := multiSearch_spec hsearch
      (Searching.initial _ hW (dvd_burstOffset hoffset))
    have hremembered := hrem burstOffset hoffset
    exact h.insert_two hsecond hfirst hsame (hremembered _ (hs.from_start.trans hs.first_le))
      (hremembered _ hs.from_start)

/-- **Command bandwidth.**  In a run in which no search comes upon a window that has been pruned,
no window is given out more than `m` times; every call ends, and its slots are in order. -/
theorem command_bandwidth {W m : ℕ} (hW : 0 < W) (hm : 1 ≤ m) {s : Bus}
    (h : Reached W m (Remembered W) s) :
    (∀ w, s.assigned.count w ≤ m) ∧ ∀ cmdTick, Served W m s.burstTicks cmdTick := by
  refine ⟨?_, fun cmdTick => served hW hm s.burstTicks cmdTick⟩
  change Bounded m s
  induction h with
  | refl =>
    intro w
    exact Nat.zero_le m
  | tail _ hstep ih =>
    obtain ⟨op, hrem, hop⟩ := hstep
    exact ih.step hW hrem hop

/-- The first loop of `verifyMultiCmd` finds one offset. -/
theorem remembered_multi {s : Bus} (hoffset : BurstOffset W split cmdTick burstOffset)
    (h : RememberedFrom s (earliestFirst W cmdTick burstOffset)) :
    Remembered W s (.verifyMultiCmd cmdTick split) := by
  intro burstOffset' hoffset'
  rw [hoffset'.unique hoffset]
  exact h

/-- A command, a pair in the windows behind it once its own is pruned, a command that fills up the
second of them, and a pair that finds it full. -/
theorem command_bandwidth_pairs :
    (∀ w, (⟨12, {30, 30, 20, 20, 10}, {30, 30, 20, 20, 10, 0}⟩ : Bus).assigned.count w ≤ 2) ∧
      ∀ cmdTick, Served 10 2 {30, 30, 20, 20, 10} cmdTick := by
  have hone : Step 10 2 {} (.verifySingleCmd 5) { burstTicks := {0}, assigned := {0} } :=
    .verifySingleCmd _ 5 ⟨5, 0⟩ (by decide) ⟨1, by decide⟩
  have hlater : Step 10 2 { burstTicks := {0}, assigned := {0} } (.advance 12)
      { curTick := 12, burstTicks := {0}, assigned := {0} } := .advance _ 12 (by decide)
  have hprune : Step 10 2 { curTick := 12, burstTicks := {0}, assigned := {0} } .pruneBurstTick
      { curTick := 12, assigned := {0} } := .pruneBurstTick _
  have hoffset : BurstOffset 10 10 25 10 := ⟨2, by decide⟩
  have hpair : Step 10 2 { curTick := 12, assigned := {0} } (.verifyMultiCmd 25 10)
      { curTick := 12, burstTicks := {20, 10}, assigned := {20, 10, 0} } :=
    .verifyMultiCmd _ 25 10 ⟨25, 20, 10⟩ (by decide) ⟨10, hoffset, 1, by decide⟩
  have hfills : Step 10 2 { curTick := 12, burstTicks := {20, 10}, assigned := {20, 10, 0} }
      (.verifySingleCmd 21)
      { curTick := 12, burstTicks := {20, 20, 10}, assigned := {20, 20, 10, 0} } :=
    .verifySingleCmd _ 21 ⟨21, 20⟩ (by decide) ⟨1, by decide⟩
  have hnone : BurstOffset 10 0 27 0 := ⟨1, by decide⟩
  have hfull : Step 10 2
      { curTick := 12, burstTicks := {20, 20, 10}, assigned := {20, 20, 10, 0} }
      (.verifyMultiCmd 27 0)
      ⟨12, {30, 30, 20, 20, 10}, {30, 30, 20, 20, 10, 0}⟩ :=
    .verifyMultiCmd _ 27 0 ⟨30, 30, 30⟩ (by decide) ⟨0, hnone, 2, by decide⟩
  have hcounts : ∀ ws w, 1 ≤ w → RememberedFrom ⟨12, ws, ws + {0}⟩ w := by
    intro ws w hw v hv
    have hne : v ≠ 0 := by omega
    simp [hne]
  have hreached : Reached 10 2 (Remembered 10)
      ⟨12, {30, 30, 20, 20, 10}, {30, 30, 20, 20, 10, 0}⟩ :=
    (((((Relation.ReflTransGen.single ⟨.verifySingleCmd 5, fun _ _ => rfl, hone⟩).tail
      ⟨.advance 12, trivial, hlater⟩).tail ⟨.pruneBurstTick, trivial, hprune⟩).tail
      ⟨_, remembered_multi hoffset (hcounts 0 10 (by decide)), hpair⟩).tail
      ⟨.verifySingleCmd 21, hcounts {20, 10} 20 (by decide), hfills⟩).tail
      ⟨_, remembered_multi hnone (hcounts {20, 20, 10} 20 (by decide)), hfull⟩
  exact command_bandwidth (by decide) (by decide) hreached

/-- The window that time has entered is pruned, and given out again. -/
theorem window_given_twice :
    ∃ s, Reached 10 1 (fun _ _ => True) s ∧ s.assigned.count 0 = 2 := by
  have hadvance : Step 10 1 {} (.advance 1) { curTick := 1 } := .advance {} 1 (by decide)
  have hfirst : Step 10 1 { curTick := 1 } (.verifySingleCmd 1)
      { curTick := 1, burstTicks := {0}, assigned := {0} } :=
    .verifySingleCmd _ 1 ⟨1, 0⟩ le_rfl ⟨1, by decide⟩
  have hlater : Step 10 1 { curTick := 1, burstTicks := {0}, assigned := {0} } (.advance 2)
      { curTick := 2, burstTicks := {0}, assigned := {0} } := .advance _ 2 (by decide)
  have hprune : Step 10 1 { curTick := 2, burstTicks := {0}, assigned := {0} } .pruneBurstTick
      { curTick := 2, assigned := {0} } := .pruneBurstTick _
  have hsecond : Step 10 1 { curTick := 2, assigned := {0} } (.verifySingleCmd 2)
      { curTick := 2, burstTicks := {0}, assigned := {0, 0} } :=
    .verifySingleCmd _ 2 ⟨2, 0⟩ le_rfl ⟨1, by decide⟩
  refine ⟨_, ((((Relation.ReflTransGen.single ⟨_, trivial, hadvance⟩).tail
    ⟨_, trivial, hfirst⟩).tail ⟨_, trivial, hlater⟩).tail ⟨_, trivial, hprune⟩).tail
    ⟨_, trivial, hsecond⟩, ?_⟩
  decide

end Gem5.Mem.CommandBus
