/-
# The histories of the indirect predictor

A log of the branches that are predicted and not squashed, each with the histories that its
prediction found and with what it added to them, says what the histories of the predictor are
supposed to be.  The predictor keeps up with it (`Inv`): its path history lacks only entries that
commits have taken, and never one of the last `indirectPathLength`.  So the set that a mispredicted
branch trains is the one that its own prediction looked up (`trains_own_lookup`).
-/
import Gem5.RasRollback
import Gem5.SimpleIndirect
import Gem5.TrimmedList

namespace Gem5.BranchPrediction

open Runs TrimmedList

/-! ## The log -/

/-- The histories after a branch. -/
def Histories.extend (p : IndirectParams) (h : Histories) (taken : Bool)
    (entry : Option HistoryEntry) : Histories where
  ghr := ((h.ghr <<< 1) ||| (BitVec.ofBool taken).setWidth 32) &&& p.ghrMask
  pathHist := h.pathHist ++ entry.toList

/-- A branch, the histories that its prediction found, and what it added: its direction, and its
entry in the path history if the indirect predictor was asked. -/
structure Seen where
  seqNum : ℕ
  pcAddr : BitVec 64
  before : Histories
  taken : Bool
  entry : Option HistoryEntry
  deriving DecidableEq, Repr

/-- The histories right after a branch. -/
def Seen.after (p : IndirectParams) (s : Seen) : Histories := s.before.extend p s.taken s.entry

/-- A branch that is resolved: it gets its own direction, and a taken one its own target. -/
def Seen.resolve (s : Seen) (targetAddr : BitVec 64) (taken : Bool) : Seen :=
  { s with
    taken := taken
    entry := if taken then s.entry.map ({ · with targetAddr := targetAddr }) else s.entry }

/-- The branches that are neither squashed nor committed, youngest first; the histories right after
the last one that is committed; the youngest sequence number that is committed. -/
structure BranchLog where
  live : List Seen
  base : Histories
  done : ℕ
  deriving DecidableEq, Repr

namespace BranchLog

/-- The log before any prediction. -/
def empty : BranchLog := ⟨[], ⟨0, []⟩, 0⟩

/-- The histories right after the youngest branch that is not squashed. -/
def current (p : IndirectParams) (log : BranchLog) : Histories :=
  match log.live with
  | s :: _ => s.after p
  | [] => log.base

def predict (log : BranchLog) (s : Seen) : BranchLog := { log with live := s :: log.live }

def squash (log : BranchLog) (squashed_sn : ℕ) : BranchLog :=
  { log with live := log.live.dropWhile (·.seqNum > squashed_sn) }

def resolve (log : BranchLog) (targetAddr : BitVec 64) (taken : Bool) : BranchLog :=
  { log with
    live := match log.live with
      | s :: live => s.resolve targetAddr taken :: live
      | [] => [] }

def commit (p : IndirectParams) (log : BranchLog) (done_sn : ℕ) : BranchLog where
  live := log.live.takeWhile (·.seqNum > done_sn)
  base := match log.live.dropWhile (·.seqNum > done_sn) with
    | s :: _ => s.after p
    | [] => log.base
  done := max log.done done_sn

end BranchLog

/-! ## Trimmed histories -/

/-- The same histories, up to entries that commits have taken from the path history. -/
structure Follows (k : ℕ) (full kept : Histories) : Prop where
  ghr : kept.ghr = full.ghr
  path : Trimmed k full.pathHist kept.pathHist

theorem Follows.refl (k : ℕ) (h : Histories) : Follows k h h := ⟨rfl, .refl k _⟩

theorem Follows.extend {p : IndirectParams} {k : ℕ} {full kept : Histories}
    (h : Follows k full kept) (taken : Bool) (entry : Option HistoryEntry) :
    Follows k (full.extend p taken entry) (kept.extend p taken entry) :=
  ⟨by rw [Histories.extend, Histories.extend, h.ghr], h.path.append _⟩

/-- **Trimmed histories select the same set.** -/
theorem Follows.getSetIndex {p : IndirectParams} {full kept : Histories}
    (h : Follows p.indirectPathLength full kept) (br_addr : BitVec 64) :
    p.getSetIndex br_addr kept = p.getSetIndex br_addr full := by
  unfold IndirectParams.getSetIndex IndirectParams.hashPath
  rw [h.ghr, h.path.take_reverse]

/-! ## Unwinding -/

variable {PC : Type} {n : ℕ}

/-- **The records unwind the histories.**  From the histories `base` the branches of the log lead to
the histories `now`, and each record has what its branch found. -/
inductive Unwinds (p : IndirectParams) (base : Histories) :
    List (IndirectRecord PC n) → List Seen → Histories → Prop
  | nil : Unwinds p base [] [] base
  | cons {r : IndirectRecord PC n} {rs : List (IndirectRecord PC n)} {s : Seen} {ss : List Seen}
      {h : Histories} (hseq : r.seqNum = s.seqNum) (hsaved : r.indirectHistory = h.ghr)
      (hasked : r.wasIndirect = s.entry.isSome)
      (hentry : ∀ e ∈ s.entry, e.pcAddr = s.pcAddr ∧ e.seqNum = s.seqNum)
      (hfound : Follows p.indirectPathLength s.before h)
      (holder : ∀ e ∈ h.pathHist, e.seqNum < s.seqNum) (hrest : Unwinds p base rs ss h) :
      Unwinds p base (r :: rs) (s :: ss) (h.extend p s.taken s.entry)

section Unwinding

variable {p : IndirectParams} {base now : Histories} {rs : List (IndirectRecord PC n)}
  {ss : List Seen}

/-- The path history is that of the base, and then the entries of the branches in the log. -/
theorem Unwinds.path (h : Unwinds p base rs ss now) : ∃ later,
    now.pathHist = base.pathHist ++ later ∧ ∀ e ∈ later, ∃ s ∈ ss, e.seqNum = s.seqNum := by
  induction h with
  | nil => exact ⟨[], (List.append_nil _).symm, nofun⟩
  | @cons r rs s ss h hseq hsaved hasked hentry hfound holder hrest ih =>
    obtain ⟨later, hpath, hlater⟩ := ih
    refine ⟨later ++ s.entry.toList, ?_, fun e he => ?_⟩
    · rw [Histories.extend, hpath, List.append_assoc]
    · rcases List.mem_append.mp he with he | he
      · obtain ⟨s', hs', heq⟩ := hlater e he
        exact ⟨s', List.mem_cons_of_mem s hs', heq⟩
      · exact ⟨s, List.mem_cons_self, (hentry e (Option.mem_toList.mp he)).2⟩

theorem Unwinds.seqNums (h : Unwinds p base rs ss now) :
    rs.map (·.seqNum) = ss.map (·.seqNum) := by
  induction h with
  | nil => rfl
  | cons hseq _ _ _ _ _ _ ih => rw [List.map_cons, List.map_cons, hseq, ih]

variable {done : ℕ} {full : Histories} {info : ThreadInfo}

/-- What the histories are right after the youngest branch. -/
theorem Unwinds.current (h : Unwinds p base rs ss now)
    (hbase : Follows p.indirectPathLength full base) :
    Follows p.indirectPathLength (BranchLog.current p ⟨ss, full, done⟩) now := by
  cases h with
  | nil => exact hbase
  | cons _ _ _ _ hfound _ _ => exact hfound.extend _ _

/-- **A squash** gives the histories of the branches that stay. -/
theorem Unwinds.squash [NeZero n] (h : Unwinds p base rs ss now) {squashed_sn : ℕ}
    (hbase : ∀ e ∈ base.pathHist, e.seqNum ≤ squashed_sn) (ras : ReturnAddrStack PC n)
    (hghr : info.ghr = now.ghr)
    (hpath : info.pathHist = now.pathHist.takeWhile (·.seqNum ≤ squashed_sn)) :
    Unwinds p base (IndirectUnit.squashLoop squashed_sn rs ras info).1
      (ss.dropWhile (·.seqNum > squashed_sn))
      (IndirectUnit.squashLoop squashed_sn rs ras info).2.2.toHistories := by
  induction h generalizing ras info with
  | nil =>
    have hkeep : info.toHistories = base := by
      refine Histories.ext hghr (hpath.trans ?_)
      exact List.takeWhile_eq_self_iff.mpr fun e he => decide_eq_true (hbase e he)
    rw [IndirectUnit.squashLoop, hkeep]
    exact .nil
  | @cons r rs s ss h hseq hsaved hasked hentry hfound holder hrest ih =>
    rw [IndirectUnit.squashLoop]
    by_cases hlt : s.seqNum > squashed_sn
    · rw [if_pos (hseq.symm ▸ hlt), List.dropWhile_cons, if_pos (decide_eq_true hlt)]
      refine ih _ hsaved (hpath.trans ?_)
      -- the entry of the branch goes with it
      rw [Histories.extend, List.takeWhile_append]
      split_ifs with hall
      · have hnone : s.entry.toList.takeWhile (·.seqNum ≤ squashed_sn) = [] := by
          cases hentry' : s.entry with
          | none => rfl
          | some e =>
            have hne := (hentry e hentry').2
            exact List.takeWhile_cons_of_neg (by simpa [hne] using hlt)
        rw [hnone, List.append_nil, (List.takeWhile_prefix _).eq_of_length hall]
      · rfl
    · have hle := not_lt.mp hlt
      have hkeep : info.toHistories = h.extend p s.taken s.entry := by
        refine Histories.ext hghr (hpath.trans (List.takeWhile_eq_self_iff.mpr fun e he => ?_))
        rcases List.mem_append.mp he with he | he
        · exact decide_eq_true ((holder e he).le.trans hle)
        · exact decide_eq_true ((hentry e (Option.mem_toList.mp he)).2.trans_le hle)
      rw [if_neg (hseq.symm ▸ hlt), List.dropWhile_cons, if_neg (by simpa using hle), hkeep]
      exact .cons hseq hsaved hasked hentry hfound holder hrest

/-- **Committed branches** become part of the base. -/
theorem Unwinds.commit (h : Unwinds p base rs ss now)
    (hfull : Follows p.indirectPathLength full base) (hbase : ∀ e ∈ base.pathHist, e.seqNum ≤ done)
    (done_sn : ℕ) :
    ∃ base', Unwinds p base' (rs.takeWhile (·.seqNum > done_sn))
        (ss.takeWhile (·.seqNum > done_sn)) now ∧
      Follows p.indirectPathLength (BranchLog.commit p ⟨ss, full, done⟩ done_sn).base base' ∧
        ∀ e ∈ base'.pathHist, e.seqNum ≤ max done done_sn := by
  induction h with
  | nil => exact ⟨base, .nil, hfull, fun e he => (hbase e he).trans (le_max_left _ _)⟩
  | @cons r rs s ss h hseq hsaved hasked hentry hfound holder hrest ih =>
    by_cases hlt : s.seqNum > done_sn
    · obtain ⟨base', hunwinds, hfollows, hbound⟩ := ih
      refine ⟨base', ?_, ?_, hbound⟩
      · rw [List.takeWhile_cons, List.takeWhile_cons, if_pos (decide_eq_true (hseq.symm ▸ hlt)),
          if_pos (decide_eq_true hlt)]
        exact .cons hseq hsaved hasked hentry hfound holder hunwinds
      · unfold BranchLog.commit at hfollows ⊢
        rw [List.dropWhile_cons, if_pos (decide_eq_true hlt)]
        exact hfollows
    · have hle := not_lt.mp hlt
      refine ⟨h.extend p s.taken s.entry, ?_, ?_, fun e he => ?_⟩
      · rw [List.takeWhile_cons, List.takeWhile_cons, if_neg (by simpa [hseq] using hle),
          if_neg (by simpa using hle)]
        exact .nil
      · unfold BranchLog.commit
        rw [List.dropWhile_cons, if_neg (by simpa using hle)]
        exact hfound.extend _ _
      · refine le_max_of_le_right ?_
        rcases List.mem_append.mp he with he | he
        · exact (holder e he).le.trans hle
        · exact (hentry e (Option.mem_toList.mp he)).2.trans_le hle

/-- The first entry of the path history is taken. -/
theorem Unwinds.pop (h : Unwinds p base rs ss now) {x : HistoryEntry} {path : List HistoryEntry}
    (hpath : base.pathHist = x :: path) (hlen : p.indirectPathLength ≤ path.length) :
    Unwinds p ⟨base.ghr, path⟩ rs ss ⟨now.ghr, now.pathHist.tail⟩ := by
  induction h with
  | nil =>
    rw [hpath]
    exact .nil
  | @cons r rs s ss h hseq hsaved hasked hentry hfound holder hrest ih =>
    obtain ⟨later, hlater, -⟩ := hrest.path
    have hcons : h.pathHist = x :: (path ++ later) := by rw [hlater, hpath, List.cons_append]
    have htail : (h.pathHist ++ s.entry.toList).tail = h.pathHist.tail ++ s.entry.toList := by
      rw [hcons]
      rfl
    have hpopped : Follows p.indirectPathLength s.before ⟨h.ghr, h.pathHist.tail⟩ := by
      refine ⟨hfound.ghr, hfound.path.tail ?_⟩
      rw [hcons, List.tail_cons, List.length_append]
      exact hlen.trans (Nat.le_add_right _ _)
    have hnow : (⟨(h.extend p s.taken s.entry).ghr, (h.extend p s.taken s.entry).pathHist.tail⟩ :
        Histories) = Histories.extend p ⟨h.ghr, h.pathHist.tail⟩ s.taken s.entry :=
      Histories.ext rfl htail
    rw [hnow]
    exact .cons hseq hsaved hasked hentry hpopped
      (fun e he => holder e (List.mem_of_mem_tail he)) ih

/-- **A commit** in the predictor takes at most one entry, and leaves enough of them. -/
theorem Unwinds.commitInfo (h : Unwinds p base rs ss info.toHistories) {done_sn : ℕ}
    (hfull : Follows p.indirectPathLength full base) (hbase : ∀ e ∈ base.pathHist, e.seqNum ≤ done)
    (hyoung : ∀ s ∈ ss, done_sn < s.seqNum) :
    ∃ base', Unwinds p base' rs ss (info.commit p done_sn).toHistories ∧
      Follows p.indirectPathLength full base' ∧ ∀ e ∈ base'.pathHist, e.seqNum ≤ done := by
  unfold ThreadInfo.commit
  split
  · exact ⟨base, h, hfull, hbase⟩
  · rename_i entry hentry
    split_ifs with hle hhead
    · obtain ⟨later, hpath, hlater⟩ := h.path
      have hlt : info.headHistEntry < base.pathHist.length := by
        by_contra hge
        rw [hpath, List.getElem?_append_right (not_lt.mp hge)] at hentry
        obtain ⟨s, hs, heq⟩ := hlater entry (List.mem_of_getElem? hentry)
        exact absurd (hyoung s hs) (by omega)
      obtain ⟨x, path, hcons⟩ := List.exists_cons_of_length_pos (Nat.zero_lt_of_lt hlt)
      have hlen : p.indirectPathLength ≤ path.length := by
        rw [hcons, List.length_cons] at hlt
        omega
      refine ⟨⟨base.ghr, path⟩, h.pop hcons hlen, ⟨hfull.ghr, ?_⟩, fun e he => hbase e ?_⟩
      · have htail := hfull.path.tail (by rw [hcons, List.tail_cons]; exact hlen)
        rw [hcons] at htail
        exact htail
      · rw [hcons]
        exact List.mem_cons_of_mem x he
    · exact ⟨base, h, hfull, hbase⟩
    · exact ⟨base, h, hfull, hbase⟩

/-- One commit for each committed record. -/
theorem Unwinds.commits (h : Unwinds p base rs ss info.toHistories) {done_sn : ℕ}
    (hfull : Follows p.indirectPathLength full base) (hbase : ∀ e ∈ base.pathHist, e.seqNum ≤ done)
    (hyoung : ∀ s ∈ ss, done_sn < s.seqNum) (committed : List (IndirectRecord PC n)) :
    ∃ base', Unwinds p base' rs ss
        (committed.foldl (fun info _ => info.commit p done_sn) info).toHistories ∧
      Follows p.indirectPathLength full base' ∧ ∀ e ∈ base'.pathHist, e.seqNum ≤ done := by
  induction committed generalizing info base with
  | nil => exact ⟨base, h, hfull, hbase⟩
  | cons _ committed ih =>
    obtain ⟨base', h', hfull', hbase'⟩ := h.commitInfo hfull hbase hyoung
    exact ih h' hfull' hbase'

end Unwinding

/-! ## Operations -/

theorem ghr_add_eq_or (ghr : BitVec 32) (taken : Bool) :
    (ghr <<< 1) + (BitVec.ofBool taken).setWidth 32 =
      (ghr <<< 1) ||| (BitVec.ofBool taken).setWidth 32 := by
  refine BitVec.add_eq_or_of_and_eq_zero _ _ (BitVec.eq_of_getLsbD_eq fun i hi => ?_)
  rw [BitVec.getLsbD_and, BitVec.getLsbD_shiftLeft]
  by_cases h0 : i < 1
  · rw [decide_eq_true h0]
    simp
  · cases taken with
    | false => simp
    | true =>
      have hbit : ((BitVec.ofBool true).setWidth 32).getLsbD i = false := by
        rw [BitVec.getLsbD_setWidth, BitVec.getLsbD_ofBool]
        simp
        omega
      rw [hbit, Bool.and_false]
      simp

section Operations

variable {p : IndirectParams} {instAddr : PC → BitVec 64}

theorem indirectSets_ne_zero (hp : p.check = .ok ()) : p.indirectSets ≠ 0 := by
  unfold IndirectParams.check at hp
  obtain ⟨_, hsets, -⟩ := bind_eq_ok.mp hp
  have hsets := require_eq_ok.mp hsets
  rw [Bool.and_eq_true, decide_eq_true_eq] at hsets
  exact hsets.1

theorem hashPath_ends (hash : BitVec 64) (pathHist : List HistoryEntry) :
    Ends (fun _ => True) (· = .divisionByZero) (p.hashPath hash pathHist) := by
  unfold IndirectParams.hashPath
  split_ifs
  · exact (ends_require (E := (· = IndirectFail.divisionByZero)) rfl).bind fun _ _ => trivial
  · trivial

/-- The set of a branch is one of the sets. -/
theorem getSetIndex_ends (hp : p.check = .ok ()) (br_addr : BitVec 64) (h : Histories) :
    Ends (· < p.indirectSets) (· = .divisionByZero) (p.getSetIndex br_addr h) := by
  unfold IndirectParams.getSetIndex
  refine (hashPath_ends _ _).bind fun hash _ => ?_
  show (hash &&& BitVec.ofNat 64 (p.indirectSets - 1)).toNat < p.indirectSets
  rw [BitVec.toNat_and, BitVec.toNat_ofNat]
  have hne := indirectSets_ne_zero hp
  have hle := Nat.mod_le (p.indirectSets - 1) (2 ^ 64)
  exact (Nat.and_le_right.trans hle).trans_lt (by omega)

theorem lookup_ends (hp : p.check = .ok ()) (c : TargetCache PC) (br_addr : BitVec 64)
    (h : Histories) : Ends (fun _ => True) (· = .divisionByZero) (c.lookup p br_addr h) := by
  unfold TargetCache.lookup
  refine (getSetIndex_ends hp br_addr h).bind fun i hi => ?_
  rw [require_ok (decide_eq_true hi)]
  exact trivial

variable {iset : List (IPredEntry PC)}

/-- What the ways look like after an update, and what is found there. -/
theorem updateWay_some {tag : BitVec 64} {target : PC} {iset' : List (IPredEntry PC)}
    (h : updateWay tag target iset = some iset') : iset'.length = iset.length ∧
      (iset'.find? (·.tag = tag)).map (·.target) = some target := by
  induction iset generalizing iset' with
  | nil => exact nomatch h
  | cons way iset ih =>
    unfold updateWay at h
    split_ifs at h with htag
    · obtain rfl := Option.some.inj h
      refine ⟨rfl, ?_⟩
      rw [List.find?_cons, htag, decide_eq_true rfl]
      rfl
    · obtain ⟨rest, hrest, rfl⟩ := Option.map_eq_some_iff.mp h
      obtain ⟨hlen, hfind⟩ := ih hrest
      refine ⟨congrArg (· + 1) hlen, ?_⟩
      rw [List.find?_cons, decide_eq_false htag]
      exact hfind

theorem updateWay_none {tag : BitVec 64} {target : PC} (h : updateWay tag target iset = none) :
    ∀ way ∈ iset, way.tag ≠ tag := by
  induction iset with
  | nil => exact nofun
  | cons way iset ih =>
    unfold updateWay at h
    split_ifs at h with htag
    exact List.forall_mem_cons.mpr ⟨htag, ih (Option.map_eq_none_iff.mp h)⟩

/-- **A set that is trained** has the target under the tag. -/
theorem trainSet_ends {numWays : ℕ} (tag : BitVec 64) (target : PC) (rand : ℕ)
    (hways : iset.length = numWays) :
    Ends (fun iset' => iset'.length = numWays ∧
        (iset'.find? (·.tag = tag)).map (·.target) = some target)
      (· = IndirectFail.divisionByZero) (trainSet numWays tag target rand iset) := by
  unfold trainSet
  cases hupdate : updateWay tag target iset with
  | some iset' =>
    obtain ⟨hlen, hfind⟩ := updateWay_some hupdate
    exact ⟨hlen.trans hways, hfind⟩
  | none =>
    refine (ends_require (E := (· = IndirectFail.divisionByZero)) rfl).bind fun _ hne => ?_
    have hlt : rand % numWays < iset.length :=
      (Nat.mod_lt _ (Nat.pos_of_ne_zero (of_decide_eq_true hne))).trans_eq hways.symm
    refine ⟨(List.length_set).trans hways, ?_⟩
    have hother := updateWay_none hupdate
    have hnone : (iset.take (rand % numWays)).find? (·.tag = tag) = none :=
      List.find?_eq_none.mpr fun way hway => by
        simpa using hother way (List.mem_of_mem_take hway)
    rw [List.set_eq_take_append_cons_drop, if_pos hlt, List.find?_append, hnone, Option.none_or,
      List.find?_cons, decide_eq_true rfl]
    rfl

end Operations

/-! ## Runs -/

/-- The calls for one thread; `rand` is what `rand()` returns. -/
inductive IndirectAction (PC : Type) where
  | predict (inst : StaticInst PC) (seqNum : ℕ) (pc : PC) (ans : Answers PC)
  | squash (squashed_sn : ℕ)
  | mispredict (squashed_sn : ℕ) (corrTarget : PC) (actually_taken : Bool) (rand : ℕ)
  | update (done_sn : ℕ)

/-- A unit with its log. -/
structure IndirectRun (PC : Type) (n : ℕ) where
  unit : IndirectUnit PC n
  log : BranchLog


namespace IndirectRun

variable (p : IndirectParams) (instAddr : PC → BitVec 64)

def start [Zero PC] [NeZero n] : IndirectRun PC n := ⟨.init p, .empty⟩

/-- What the log notes of a prediction. -/
def seen (u : IndirectUnit PC n) (inst : StaticInst PC) (seqNum : ℕ) (pc : PC) (ans : Answers PC)
    (prediction : Prediction PC n) : Seen where
  seqNum := seqNum
  pcAddr := instAddr pc
  before := u.info.toHistories
  taken := predictsTaken inst ans
  entry := if prediction.record.wasIndirect then
    some ⟨instAddr pc, instAddr prediction.target, seqNum⟩ else none

def step [Zero PC] [NeZero n] (r : IndirectRun PC n) :
    IndirectAction PC → Except IndirectFail (IndirectRun PC n)
  | .predict inst seqNum pc ans => do
      let (u, prediction) ← r.unit.predict p instAddr inst seqNum pc ans
      return ⟨u, r.log.predict (seen instAddr r.unit inst seqNum pc ans prediction)⟩
  | .squash squashed_sn => .ok ⟨r.unit.squash squashed_sn, r.log.squash squashed_sn⟩
  | .mispredict squashed_sn corrTarget actually_taken rand => do
      let u ← (r.unit.squash squashed_sn).fixUp p instAddr squashed_sn corrTarget actually_taken
        rand
      return ⟨u, (r.log.squash squashed_sn).resolve (instAddr corrTarget) actually_taken⟩
  | .update done_sn => .ok ⟨r.unit.update p done_sn, r.log.commit p done_sn⟩

/-- What the unit is asked in the order of the instructions: a new branch is younger than those
before, and what is committed is not squashed. -/
def Allowed (r : IndirectRun PC n) : IndirectAction PC → Prop
  | .predict _ seqNum _ _ => r.log.done < seqNum ∧ ∀ s ∈ r.log.live, s.seqNum < seqNum
  | .squash squashed_sn => r.log.done ≤ squashed_sn
  | .mispredict squashed_sn _ _ _ => r.log.done ≤ squashed_sn
  | .update _ => True

/-- **The unit keeps up with the log.** -/
structure Inv (p : IndirectParams) (r : IndirectRun PC n) : Prop where
  unwinds : ∃ base, Unwinds p base r.unit.predHist r.log.live r.unit.info.toHistories ∧
    Follows p.indirectPathLength r.log.base base ∧ ∀ e ∈ base.pathHist, e.seqNum ≤ r.log.done
  ordered : r.log.live.Pairwise (·.seqNum > ·.seqNum)
  young : ∀ s ∈ r.log.live, r.log.done < s.seqNum
  ways : ∀ set, (r.unit.targetCache set).length = p.indirectWays

variable {p instAddr}

theorem start_inv [Zero PC] [NeZero n] : Inv p (start p : IndirectRun PC n) where
  unwinds := ⟨⟨0, []⟩, .nil, .refl _ _, nofun⟩
  ordered := .nil
  young := nofun
  ways := fun _ => List.length_replicate

variable {r : IndirectRun PC n}

/-- The path history holds no entry of a younger branch. -/
theorem Inv.older (h : Inv p r) {seqNum : ℕ} (hdone : r.log.done < seqNum)
    (hlive : ∀ s ∈ r.log.live, s.seqNum < seqNum) :
    ∀ e ∈ r.unit.info.pathHist, e.seqNum < seqNum := by
  obtain ⟨base, hunwinds, -, hbase⟩ := h.unwinds
  obtain ⟨later, hpath, hlater⟩ := hunwinds.path
  intro e he
  rw [hpath] at he
  rcases List.mem_append.mp he with he | he
  · exact (hbase e he).trans_lt hdone
  · obtain ⟨s, hs, heq⟩ := hlater e he
    exact heq.trans_lt (hlive s hs)

/-- What a prediction adds to the histories. -/
theorem recordPrediction_eq (instAddr : PC → BitVec 64) (info : ThreadInfo)
    (inst : StaticInst PC) (seqNum : ℕ) (pc : PC) (ans : Answers PC) (prediction : Prediction PC n) :
    (IndirectUnit.recordPrediction p instAddr info inst seqNum pc ans prediction).toHistories =
      info.toHistories.extend p (predictsTaken inst ans) (if prediction.record.wasIndirect then
        some ⟨instAddr pc, instAddr prediction.target, seqNum⟩ else none) := by
  unfold IndirectUnit.recordPrediction
  dsimp only
  split_ifs
  · rfl
  · exact Histories.ext rfl (List.append_nil _).symm

/-- **Commits** keep the histories of the branches that are left. -/
theorem Inv.update (h : Inv p r) (done_sn : ℕ) :
    Inv p ⟨r.unit.update p done_sn, r.log.commit p done_sn⟩ := by
  obtain ⟨base, hunwinds, hfollows, hbase⟩ := h.unwinds
  have hordered : r.unit.predHist.Pairwise (·.seqNum > ·.seqNum) := by
    have hseqs := h.ordered
    rw [← List.pairwise_map (f := Seen.seqNum) (R := (· > ·)), ← hunwinds.seqNums] at hseqs
    exact List.pairwise_map.mp hseqs
  have hsub : (r.log.commit p done_sn).live.Sublist r.log.live := List.takeWhile_sublist _
  have hyoung : ∀ s ∈ (r.log.commit p done_sn).live, done_sn < s.seqNum := fun s hs =>
    of_decide_eq_true (List.mem_takeWhile_imp (p := fun s : Seen => s.seqNum > done_sn) hs)
  obtain ⟨base', hunwinds', hfollows', hbase'⟩ := hunwinds.commit hfollows hbase done_sn
  refine ⟨?_, h.ordered.sublist hsub, fun s hs => max_lt (h.young s (hsub.subset hs)) (hyoung s hs),
    h.ways⟩
  unfold IndirectUnit.update
  dsimp only
  rw [rdropWhile_eq_takeWhile hordered]
  exact hunwinds'.commits hfollows' hbase' hyoung _

/-! ## Training -/

/-- **The branch trains the set that it looked up**, under its own tag; the same lookup then finds
the target. -/
def Trains (p : IndirectParams) (s : Seen) (c c' : TargetCache PC) (corrTarget : PC) (rand : ℕ) :
    Prop :=
  ∃ set iset, p.getSetIndex s.pcAddr s.before = .ok set ∧
    trainSet p.indirectWays (p.getTag s.pcAddr) corrTarget rand (c set) = .ok iset ∧
      c' = Function.update c set iset ∧ c'.lookup p s.pcAddr s.before = .ok (some corrTarget)

/-- The target of the youngest branch, which has the last entry of the path history. -/
theorem recordTarget_ends (hp : p.check = .ok ()) {s : Seen} {h : Histories} {e : HistoryEntry}
    (hentry : e.pcAddr = s.pcAddr) (hfound : Follows p.indirectPathLength s.before h)
    {c : TargetCache PC} (hways : ∀ set, (c set).length = p.indirectWays) {info : ThreadInfo}
    (hpath : info.pathHist = h.pathHist ++ [e]) (corrTarget : PC) (rand : ℕ) :
    Ends (fun x => Trains p s c x.1 corrTarget rand ∧
        (∀ set, (x.1 set).length = p.indirectWays) ∧ x.2.ghr = info.ghr ∧
        x.2.pathHist = h.pathHist ++ [{ e with targetAddr := instAddr corrTarget }])
      (· = .divisionByZero) (c.recordTarget p instAddr info h.ghr corrTarget rand) := by
  unfold TargetCache.recordTarget
  rw [hpath, List.getLast?_concat, List.dropLast_concat]
  have hset := getSetIndex_ends hp e.pcAddr ⟨h.ghr, h.pathHist⟩
  cases hindex : p.getSetIndex e.pcAddr ⟨h.ghr, h.pathHist⟩ with
  | error err =>
    rw [hindex] at hset
    dsimp only [orFail, bind, Except.bind]
    rw [hindex]
    exact hset
  | ok set =>
    rw [hindex] at hset
    have hlt : set < p.indirectSets := hset
    have hown : p.getSetIndex s.pcAddr s.before = .ok set := by
      rw [← hfound.getSetIndex, ← hentry]
      exact hindex
    dsimp only [orFail, bind, Except.bind]
    rw [hindex]
    dsimp only
    rw [require_ok (decide_eq_true hlt)]
    have htrain := trainSet_ends (p.getTag e.pcAddr) corrTarget rand (hways set)
    cases hiset : trainSet p.indirectWays (p.getTag e.pcAddr) corrTarget rand (c set) with
    | error err =>
      rw [hiset] at htrain
      exact htrain
    | ok iset =>
      rw [hiset] at htrain
      obtain ⟨hlen, hfind⟩ := htrain
      refine ⟨⟨set, iset, hown, hentry ▸ hiset, rfl, ?_⟩, fun set' => ?_, rfl, rfl⟩
      · unfold TargetCache.lookup
        rw [hown]
        dsimp only [bind, Except.bind]
        rw [require_ok (decide_eq_true hlt), Function.update_self, ← hentry]
        exact congrArg Except.ok hfind
      · show (Function.update c set iset set').length = _
        by_cases heq : set' = set
        · rw [heq, Function.update_self]
          exact hlen
        · rw [Function.update_of_ne heq]
          exact hways set'

/-- What a resolved branch adds to the path history, and what it trains. -/
theorem correctTarget_ends (hp : p.check = .ok ()) {r : IndirectRecord PC n} {s : Seen}
    {h : Histories} (hsaved : r.indirectHistory = h.ghr) (hasked : r.wasIndirect = s.entry.isSome)
    (hentry : ∀ e ∈ s.entry, e.pcAddr = s.pcAddr ∧ e.seqNum = s.seqNum)
    (hfound : Follows p.indirectPathLength s.before h) {c : TargetCache PC}
    (hways : ∀ set, (c set).length = p.indirectWays) {info : ThreadInfo}
    (hpath : info.pathHist = h.pathHist ++ s.entry.toList) (corrTarget : PC)
    (actually_taken : Bool) (rand : ℕ) :
    Ends (fun x => (actually_taken = true → s.entry.isSome → Trains p s c x.1 corrTarget rand) ∧
        (∀ set, (x.1 set).length = p.indirectWays) ∧ x.2.ghr = info.ghr ∧ x.2.pathHist =
          h.pathHist ++ (s.resolve (instAddr corrTarget) actually_taken).entry.toList)
      (· = .divisionByZero)
      (IndirectUnit.correctTarget p instAddr c info r corrTarget actually_taken rand) := by
  unfold IndirectUnit.correctTarget Seen.resolve
  rw [hasked, hsaved]
  cases actually_taken with
  | false => exact ⟨nofun, hways, rfl, hpath⟩
  | true =>
    cases hsome : s.entry with
    | none =>
      rw [hsome] at hpath
      exact ⟨nofun, hways, rfl, hpath⟩
    | some e =>
      rw [hsome] at hpath
      exact (recordTarget_ends hp (hentry e hsome).1 hfound hways hpath corrTarget rand).mono
        fun x hx => ⟨fun _ _ => hx.1, hx.2⟩

theorem Seen.resolve_entry {s : Seen}
    (hentry : ∀ e ∈ s.entry, e.pcAddr = s.pcAddr ∧ e.seqNum = s.seqNum) (targetAddr : BitVec 64)
    (taken : Bool) : (s.resolve targetAddr taken).entry.isSome = s.entry.isSome ∧
      ∀ e ∈ (s.resolve targetAddr taken).entry, e.pcAddr = s.pcAddr ∧ e.seqNum = s.seqNum := by
  unfold Seen.resolve
  cases taken with
  | false => exact ⟨rfl, hentry⟩
  | true =>
    refine ⟨Option.isSome_map, fun e he => ?_⟩
    obtain ⟨e', he', rfl⟩ := Option.mem_map.mp he
    exact hentry e' he'

/-! ## Steps -/

variable [NeZero n]

/-- **A prediction** is one more branch of the log, with the histories it found. -/
theorem Inv.predict [Zero PC] (hp : p.check = .ok ()) (h : Inv p r) {inst : StaticInst PC}
    {seqNum : ℕ} {pc : PC} {ans : Answers PC} (hdone : r.log.done < seqNum)
    (hlive : ∀ s ∈ r.log.live, s.seqNum < seqNum) :
    Ends (fun r' => Inv p r' ∧ r'.log.current p = r'.unit.info.toHistories)
      (· = .divisionByZero) (r.step p instAddr (.predict inst seqNum pc ans)) := by
  obtain ⟨base, hunwinds, hfollows, hbase⟩ := h.unwinds
  unfold step IndirectUnit.predict
  refine Ends.bind (P := fun x => ∃ answer, x = r.unit.recordAnswer p instAddr inst seqNum pc ans
    answer) ?_ ?_
  · refine Ends.bind (P := fun _ => True) ?_ fun answer _ => ⟨answer, rfl⟩
    unfold IndirectUnit.answer
    split_ifs
    · exact lookup_ends hp _ _ _
    · trivial
  · rintro _ ⟨answer, rfl⟩
    have hinfo := recordPrediction_eq (p := p) instAddr r.unit.info inst seqNum pc ans
      (BranchPrediction.predict inst seqNum pc { ans with iPred := some answer } r.unit.ras)
    refine ⟨⟨⟨base, ?_, hfollows, hbase⟩, ?_, ?_, h.ways⟩, hinfo.symm⟩
    · show Unwinds p base _ _ (IndirectUnit.recordPrediction _ _ _ _ _ _ _ _).toHistories
      rw [hinfo]
      refine .cons (s := seen instAddr r.unit inst seqNum pc ans _) predict_seqNum rfl ?_ ?_
        (.refl _ _) (h.older hdone hlive) hunwinds
      · unfold seen
        dsimp only
        split_ifs with hasked
        · exact hasked
        · exact Bool.eq_false_of_not_eq_true hasked
      · unfold seen
        dsimp only
        split_ifs
        · rintro _ ⟨⟩
          exact ⟨rfl, rfl⟩
        · exact nofun
    · exact List.pairwise_cons.mpr ⟨hlive, h.ordered⟩
    · exact List.forall_mem_cons.mpr ⟨hdone, h.young⟩

/-- A squash. -/
theorem Inv.squash (h : Inv p r) {squashed_sn : ℕ} (hdone : r.log.done ≤ squashed_sn) :
    Inv p ⟨r.unit.squash squashed_sn, r.log.squash squashed_sn⟩ := by
  obtain ⟨base, hunwinds, hfollows, hbase⟩ := h.unwinds
  have hsub : ((r.log.squash squashed_sn).live).Sublist r.log.live := List.dropWhile_sublist _
  refine ⟨⟨base, ?_, hfollows, hbase⟩, h.ordered.sublist hsub,
    fun s hs => h.young s (hsub.subset hs), h.ways⟩
  exact hunwinds.squash (fun e he => (hbase e he).trans hdone) r.unit.ras rfl rfl

/-! ## Mispredictions -/

theorem resolve_wasIndirect (r : PredictorHistory PC n) (corrTarget : PC) (actually_taken : Bool)
    (ras : ReturnAddrStack PC n) :
    (resolve r corrTarget actually_taken ras).1.wasIndirect = r.wasIndirect := by
  unfold resolve
  dsimp only
  split
  · split <;> rfl
  · split
    · rfl
    · split <;> rfl

/-- The second half of a squash with a corrected target. -/
theorem Inv.fixUp (hp : p.check = .ok ()) (h : Inv p r) (squashed_sn : ℕ) (corrTarget : PC)
    (actually_taken : Bool) (rand : ℕ) :
    Ends (fun u => Inv p ⟨u, r.log.resolve (instAddr corrTarget) actually_taken⟩ ∧
        (actually_taken = true → ∀ s ∈ r.log.live.head?, s.entry.isSome →
          Trains p s r.unit.targetCache u.targetCache corrTarget rand))
      (fun e => e = .otherBranch ∨ e = .divisionByZero)
      (r.unit.fixUp p instAddr squashed_sn corrTarget actually_taken rand) := by
  obtain ⟨⟨ras, predHist, info, targetCache⟩, ⟨live, logBase, done⟩⟩ := r
  obtain ⟨⟨base, hunwinds, hfollows, hbase⟩, hordered, hyoung, hways⟩ := h
  dsimp only at hunwinds hfollows hbase hordered hyoung hways
  unfold IndirectUnit.fixUp BranchLog.resolve
  dsimp only
  generalize hnow : info.toHistories = now at hunwinds
  cases hunwinds with
  | nil => exact ⟨⟨⟨base, hnow ▸ .nil, hfollows, hbase⟩, hordered, hyoung, hways⟩, fun _ => nofun⟩
  | @cons r rs s ss h hseq hsaved hasked hentry hfound holder hrest =>
    dsimp only
    refine (ends_require (.inl rfl)).bind fun _ _ => ?_
    have hpath : info.pathHist = h.pathHist ++ s.entry.toList := congrArg (·.pathHist) hnow
    have hchanged : (info.changeDirectionPrediction p r.indirectHistory actually_taken).pathHist =
        h.pathHist ++ s.entry.toList := hpath
    refine ((correctTarget_ends hp hsaved hasked hentry hfound hways hchanged corrTarget
      actually_taken rand).mono_error fun e he => .inr he).bind ?_
    rintro ⟨cache', info'⟩ ⟨htrains, hways', hghr', hpath'⟩
    obtain ⟨hsome, hentry'⟩ := Seen.resolve_entry hentry (instAddr corrTarget) actually_taken
    refine ⟨⟨⟨base, ?_, hfollows, hbase⟩, ?_, ?_, hways'⟩, fun htaken s' hs' => ?_⟩
    · have hnow' : info'.toHistories = h.extend p actually_taken
          (s.resolve (instAddr corrTarget) actually_taken).entry := by
        refine Histories.ext (hghr'.trans ?_) hpath'
        show ((r.indirectHistory <<< 1) + _) &&& p.ghrMask = _
        rw [ghr_add_eq_or, hsaved]
        rfl
      show Unwinds p base _ _ info'.toHistories
      rw [hnow']
      exact .cons (s := s.resolve (instAddr corrTarget) actually_taken)
        ((resolve_seqNum _ _ _ _).trans hseq) hsaved
        ((resolve_wasIndirect _ _ _ _).trans (hasked.trans hsome.symm)) hentry' hfound holder
        hrest
    · obtain ⟨hfirst, hrest'⟩ := List.pairwise_cons.mp hordered
      exact List.pairwise_cons.mpr ⟨hfirst, hrest'⟩
    · obtain ⟨hfirst, hrest'⟩ := List.forall_mem_cons.mp hyoung
      exact List.forall_mem_cons.mpr ⟨hfirst, hrest'⟩
    · obtain rfl := Option.some.inj hs'
      exact htrains htaken

/-- **A misprediction** is resolved in the log, and a taken indirect branch trains its own set. -/
theorem Inv.mispredict [Zero PC] (hp : p.check = .ok ()) (h : Inv p r) {squashed_sn : ℕ}
    (hdone : r.log.done ≤ squashed_sn) (corrTarget : PC) (actually_taken : Bool) (rand : ℕ) :
    Ends (fun r' => Inv p r' ∧
        (actually_taken = true → ∀ s ∈ (r.log.squash squashed_sn).live.head?, s.entry.isSome →
          Trains p s r.unit.targetCache r'.unit.targetCache corrTarget rand))
      (fun e => e = .otherBranch ∨ e = .divisionByZero)
      (r.step p instAddr (.mispredict squashed_sn corrTarget actually_taken rand)) :=
  ((h.squash hdone).fixUp hp squashed_sn corrTarget actually_taken rand).bind fun _ hu => hu

/-! ## Runs of the unit -/

/-- **What the indirect predictor promises**: its histories are those right after the youngest
branch, up to entries that commits have taken; a prediction adds its own histories to the log; and a
mispredicted branch trains the set it looked up. -/
structure Faithful [Zero PC] (p : IndirectParams) (instAddr : PC → BitVec 64)
    (r : IndirectRun PC n) : Prop where
  restored : Follows p.indirectPathLength (r.log.current p) r.unit.info.toHistories
  predicts : ∀ inst seqNum pc ans r', Allowed r (.predict inst seqNum pc ans) →
    r.step p instAddr (.predict inst seqNum pc ans) = .ok r' →
      r'.log.current p = r'.unit.info.toHistories
  trains : ∀ squashed_sn corrTarget rand r', r.log.done ≤ squashed_sn →
    r.step p instAddr (.mispredict squashed_sn corrTarget true rand) = .ok r' →
      ∀ s ∈ (r.log.squash squashed_sn).live.head?, s.entry.isSome →
        Trains p s r.unit.targetCache r'.unit.targetCache corrTarget rand

theorem Inv.faithful [Zero PC] (hp : p.check = .ok ()) (h : Inv p r) :
    Faithful p instAddr r where
  restored := by
    obtain ⟨base, hunwinds, hfollows, -⟩ := h.unwinds
    exact hunwinds.current hfollows
  predicts := fun inst seqNum pc ans r' hallowed hstep => by
    have hspec : Ends _ _ (r.step p instAddr (.predict inst seqNum pc ans)) :=
      h.predict hp hallowed.1 hallowed.2
    rw [hstep] at hspec
    exact hspec.2
  trains := fun squashed_sn corrTarget rand r' hdone hstep => by
    have hspec : Ends _ _ (r.step p instAddr (.mispredict squashed_sn corrTarget true rand)) :=
      h.mispredict hp hdone corrTarget true rand
    rw [hstep] at hspec
    exact hspec.2 rfl

/-- **One step.** -/
theorem Inv.step [Zero PC] (hp : p.check = .ok ()) (h : Inv p r) {act : IndirectAction PC}
    (hallowed : Allowed r act) :
    Ends (Inv p) (fun e => e = .otherBranch ∨ e = .divisionByZero) (r.step p instAddr act) := by
  cases act with
  | predict inst seqNum pc ans =>
    exact ((h.predict hp hallowed.1 hallowed.2).mono fun _ hr => hr.1).mono_error
      fun _ he => .inr he
  | squash squashed_sn => exact h.squash hallowed
  | mispredict squashed_sn corrTarget actually_taken rand =>
    exact (h.mispredict hp hallowed corrTarget actually_taken rand).mono fun _ hr => hr.1
  | update done_sn => exact h.update done_sn

/-- **The indirect predictor trains what it looked up**, in every run of the unit.  Its histories
follow the branches that are predicted and not squashed, and it stops only at the assertion on the
mispredicted branch or, with no ways or no path, at a division by zero. -/
theorem trains_own_lookup [Zero PC] (hp : p.check = .ok ()) {acts : List (IndirectAction PC)}
    (ha : Admitted Allowed (step p instAddr) (start p : IndirectRun PC n) acts) :
    Ends (Faithful p instAddr) (fun e => e = .otherBranch ∨ e = .divisionByZero)
      (run (step p instAddr) (start p : IndirectRun PC n) acts) := by
  have hstep : ∀ (r : IndirectRun PC n) act r', Inv p r → Allowed r act →
      r.step p instAddr act = .ok r' → Inv p r' := by
    intro r act r' h hallowed hs
    have hspec : Ends _ _ (r.step p instAddr act) := h.step hp hallowed
    rw [hs] at hspec
    exact hspec
  cases hrun : run (step p instAddr) (start p : IndirectRun PC n) acts with
  | ok r => exact (run_invariant hstep start_inv ha hrun).faithful hp
  | error e =>
      obtain ⟨r, act, h, hallowed, hfail⟩ := run_error hstep start_inv ha hrun
      have hspec : Ends _ _ (r.step p instAddr act) := h.step hp hallowed
      rw [hfail] at hspec
      exact hspec

instance Allowed.decidable (r : IndirectRun PC n) : ∀ act, Decidable (Allowed r act)
  | .predict .. => inferInstanceAs (Decidable (_ ∧ _))
  | .squash _ => inferInstanceAs (Decidable (_ ≤ _))
  | .mispredict .. => inferInstanceAs (Decidable (_ ≤ _))
  | .update _ => .isTrue trivial

/-- Four sets of one way, and a path of one branch. -/
def smallIndirect : IndirectParams where
  indirectHashGHR := true
  indirectHashTargets := true
  indirectSets := 4
  indirectWays := 1
  indirectTagSize := 4
  indirectPathLength := 1
  indirectGHRBits := 4
  instShiftAmt := 2

/-- An indirect jump or a conditional branch, on program counters that are addresses. -/
def jump (isIndirect : Bool) : StaticInst (BitVec 64) where
  isUncondCtrl := isIndirect
  isCall := false
  isReturn := false
  isDirectCtrl := !isIndirect
  buildRetPC := fun pc _ => pc
  advancePC := (· + 4)

/-- The prediction of a jump, taken if it is conditional. -/
def predictJump (isIndirect : Bool) (seqNum : ℕ) (pc : BitVec 64) : IndirectAction (BitVec 64) :=
  .predict (jump isIndirect) seqNum pc ⟨true, some 0, none⟩

/-- Three indirect jumps, of which the third is mispredicted after the first two are committed. -/
def threeJumps : List (IndirectAction (BitVec 64)) :=
  [predictJump true 1 16, predictJump true 2 32, predictJump true 3 48, .update 2,
    .mispredict 3 64 true 0]

theorem trains_own_lookup_three :
    ∃ r, run (step smallIndirect id) (start smallIndirect : IndirectRun (BitVec 64) 1) threeJumps =
      .ok r ∧ Faithful smallIndirect id r := by
  have hends : Ends (Faithful smallIndirect id) (fun e => e = .otherBranch ∨ e = .divisionByZero)
      (run (step smallIndirect id) (start smallIndirect : IndirectRun (BitVec 64) 1) threeJumps) :=
    trains_own_lookup (by decide) (by decide +kernel)
  obtain ⟨r, hr, -⟩ : ∃ r, run (step smallIndirect id)
      (start smallIndirect : IndirectRun (BitVec 64) 1) threeJumps = .ok r ∧
        r.unit.info.headHistEntry = 1 := by decide +kernel
  rw [hr] at hends
  exact ⟨r, hr, hends⟩

/-- **The histories are not those of the prediction.**  A branch that was predicted taken is
resolved as not taken; and two committed jumps have left one entry less in the path history. -/
theorem histories_differ :
    (∃ r, run (step smallIndirect id) (start smallIndirect : IndirectRun (BitVec 64) 1)
        [predictJump false 1 16] = .ok r ∧
      ∃ r', r.step smallIndirect id (.mispredict 1 20 false 0) = .ok r' ∧
        r'.unit.predHist.map (·.seqNum) = [1] ∧ r'.unit.info.ghr ≠ r.unit.info.ghr) ∧
    ∃ r, run (step smallIndirect id) (start smallIndirect : IndirectRun (BitVec 64) 1)
        (threeJumps.take 3) = .ok r ∧
      ∃ r', run (step smallIndirect id) r [.update 2, .squash 3] = .ok r' ∧
        r'.unit.predHist.map (·.seqNum) = [3] ∧
          r'.unit.info.pathHist ≠ r.unit.info.pathHist := by
  decide +kernel

end IndirectRun

end Gem5.BranchPrediction
