/-
# Squashing in the reorder buffer

What `ROB::squash` and `ROB::doSquash` (`cpu/o3/rob.cc`) do to the instructions of a thread.  A
squash walks from the youngest instruction to older ones, a few in a cycle, and may be started again
with an older number.

The marked instructions are always a part at the young end of the list.  When a thread is done
squashing, they are exactly the instructions that are younger than its squash number
(`squash_exact`).
-/
import Gem5.RobPartition

namespace Gem5.Rob

open Runs

variable {n : ℕ} {p : Params}

/-! ## Marking -/

/-- A squashed instruction drains from the buffer. -/
def RobInst.mark (inst : RobInst) : RobInst := { inst with squashed := true, canCommit := true }

/-- The instruction after a squash down to a number. -/
def RobInst.squashedTo (squashedSeqNum : InstSeqNum) (inst : RobInst) : RobInst :=
  if squashedSeqNum < inst.seqNum then inst.mark else inst

/-- A list whose instructions from position `m` on are marked. -/
def markFrom (m : ℕ) (list : List RobInst) : List RobInst :=
  list.mapIdx fun k inst => if m ≤ k then inst.mark else inst

theorem length_markFrom (m : ℕ) (list : List RobInst) : (markFrom m list).length = list.length :=
  List.length_mapIdx

theorem getElem?_markFrom (m : ℕ) (list : List RobInst) (k : ℕ) :
    (markFrom m list)[k]? = list[k]?.map fun inst => if m ≤ k then inst.mark else inst :=
  List.getElem?_mapIdx

/-- Nothing is marked from the end on. -/
theorem markFrom_length (list : List RobInst) : markFrom list.length list = list := by
  refine List.ext_getElem? fun k => ?_
  rw [getElem?_markFrom]
  by_cases hk : list.length ≤ k
  · rw [List.getElem?_eq_none hk]
    rfl
  · simp only [if_neg hk]
    exact Option.map_id'

/-- Marking one more instruction, next to those that are marked or among them. -/
theorem markFrom_set {list : List RobInst} {m i : ℕ} (hm : m ≤ i + 1) {inst : RobInst}
    (hinst : (markFrom m list)[i]? = some inst) :
    (markFrom m list).set i inst.mark = markFrom (min m i) list := by
  refine List.ext_getElem? fun k => ?_
  rw [getElem?_markFrom, List.getElem?_set, length_markFrom]
  rw [getElem?_markFrom] at hinst
  obtain ⟨inst₀, hinst₀, rfl⟩ := Option.map_eq_some_iff.mp hinst
  have hi : i < list.length := (List.getElem?_eq_some_iff.mp hinst₀).1
  by_cases hk : i = k
  · rw [if_pos hk, ← hk, if_pos hi, hinst₀]
    simp only [Option.map_some, min_le_right, if_true, Option.some.injEq]
    split <;> rfl
  · rw [if_neg hk, getElem?_markFrom]
    have hiff : m ≤ k ↔ min m i ≤ k := by omega
    simp only [hiff]

/-- **Marking is exact** when those from `m` on are the younger ones. -/
theorem markFrom_eq_map {list : List RobInst} {m : ℕ} {q : InstSeqNum}
    (hyoung : ∀ k inst, m ≤ k → list[k]? = some inst → q < inst.seqNum)
    (hold : ∀ k inst, k < m → list[k]? = some inst → inst.seqNum ≤ q) :
    markFrom m list = list.map (RobInst.squashedTo q) := by
  refine List.ext_getElem? fun k => ?_
  rw [getElem?_markFrom, List.getElem?_map]
  cases hinst : list[k]? with
  | none => rfl
  | some inst =>
    rw [Option.map_some, Option.map_some, RobInst.squashedTo]
    by_cases hk : m ≤ k
    · rw [if_pos hk, if_pos (hyoung k inst hk hinst)]
    · rw [if_neg hk, if_neg (Nat.not_lt.mpr (hold k inst (Nat.not_le.mp hk) hinst))]

/-! ## What a step changes -/

/-- What a squash reads and writes of a thread. -/
def view (s : ROB n) (tid : Fin n) : List RobInst × SquashIt × InstSeqNum × Bool :=
  (s.instList tid, s.squashIt tid, s.squashedSeqNum tid, s.doneSquashing tid)

/-- The thread on which an action works. -/
def Action.thread : Action n → Option (Fin n)
  | .insertInst tid _ | .retireHead tid | .markCompleted tid _ | .squash _ tid _
  | .doSquash tid _ => some tid
  | .setActiveThreads _ => none

/-- The walk changes no number. -/
theorem seqNum_squashLoop {q : InstSeqNum} {fuel i : ℕ} {list : List RobInst}
    {r : List RobInst × SquashIt × Bool} (h : squashLoop q fuel list i = .ok r) :
    r.1.map RobInst.seqNum = list.map RobInst.seqNum := by
  induction fuel generalizing list i with
  | zero =>
    cases h
    rfl
  | succ fuel ih =>
    rw [squashLoop] at h
    cases hi : list[i]? with
    | none =>
      rw [hi] at h
      cases h
    | some inst =>
      rw [hi] at h
      dsimp only at h
      have hset : (list.set i { inst with squashed := true, canCommit := true }).map
          RobInst.seqNum = list.map RobInst.seqNum := by
        rw [List.map_set]
        obtain ⟨hlt, rfl⟩ := List.getElem?_eq_some_iff.mp hi
        refine List.ext_getElem? fun k => ?_
        rw [List.getElem?_set, List.length_map]
        by_cases hk : i = k
        · subst hk
          rw [if_pos rfl, if_pos hlt, List.getElem?_map, List.getElem?_eq_getElem hlt]
          rfl
        · rw [if_neg hk]
      split at h
      · cases i with
        | zero =>
          cases h
          exact hset
        | succ i => exact (ih h).trans hset
      · cases h
        rfl

/-- A walk writes the list, the iterator and the flag of its thread; it is done only at the end. -/
theorem doSquash_ok {s s' : ROB n} {tid : Fin n} {exiting : Bool}
    (h : doSquash p s tid exiting = .ok s') : ∃ list it done,
      s' = { s with
        instList := Function.update s.instList tid list
        squashIt := Function.update s.squashIt tid it
        doneSquashing := Function.update s.doneSquashing tid done } ∧
      list.map RobInst.seqNum = (s.instList tid).map RobInst.seqNum ∧
      (done = true → it = .atEnd ∨ s.doneSquashing tid = true) := by
  unfold doSquash at h
  split at h
  · cases h
  · cases h
  · split at h
    · cases h
    · split at h
      · cases h
        refine ⟨s.instList tid, .atEnd, true, ?_, rfl, fun _ => .inl rfl⟩
        rw [Function.update_eq_self]
      · split at h
        · cases h
        · next list it atFront hloop =>
          unfold finishSquash at h
          dsimp only at h
          split at h
          · cases h
            exact ⟨list, .atEnd, true, rfl, seqNum_squashLoop hloop, fun _ => .inl rfl⟩
          · split at h
            · next _ j =>
              split at h
              · cases h
              · split at h
                · cases h
                  exact ⟨list, .atEnd, true, rfl, seqNum_squashLoop hloop, fun _ => .inl rfl⟩
                · cases h
                  refine ⟨list, .at j, s.doneSquashing tid, ?_, seqNum_squashLoop hloop, .inr⟩
                  rw [Function.update_eq_self]
            · cases h

/-- **Other threads** are left alone. -/
theorem view_step {s s' : ROB n} {a : Action n} {tid : Fin n} (h : step p s a = .ok s')
    (hne : a.thread ≠ some tid) : view s' tid = view s tid := by
  have hother : ∀ {u}, a.thread = some u → tid ≠ u := fun hu heq => hne (heq ▸ hu)
  have hwalk : ∀ {s s' : ROB n} {u exiting}, tid ≠ u → doSquash p s u exiting = .ok s' →
      view s' tid = view s tid := by
    intro s s' u exiting hu h
    obtain ⟨list, it, done, rfl, -, -⟩ := doSquash_ok h
    simp only [view, Function.update_of_ne hu]
  cases a with
  | insertInst u inst =>
    have hu := hother rfl
    rw [step, insertInst] at h
    dsimp only at h
    split_ifs at h
    cases h
    simp only [view, Function.update_of_ne hu]
  | retireHead u =>
    have hu := hother rfl
    rw [step, retireHead] at h
    split_ifs at h
    split at h
    · cases h
    · split_ifs at h
      cases h
      simp only [view, Function.update_of_ne hu]
  | markCompleted u seq =>
    have hu := hother rfl
    cases h
    simp only [view, markCompleted, Function.update_of_ne hu]
  | squash q u exiting =>
    have hu := hother rfl
    rw [step, squash] at h
    dsimp only at h
    split_ifs at h
    · cases h
      rfl
    · cases h
      simp only [view, Function.update_of_ne hu]
    · rw [hwalk hu h]
      simp only [view, Function.update_of_ne hu]
  | doSquash u exiting => exact hwalk (hother rfl) h
  | setActiveThreads active =>
    cases h
    rw [setActiveThreads, resetEntries]
    split <;> rfl

/-! ## Program order -/

/-- Instructions of a thread are inserted in program order. -/
def InOrder (s : ROB n) : Action n → Prop
  | .insertInst tid inst => ∀ i ∈ s.instList tid, i.seqNum < inst.seqNum
  | _ => True

instance (s : ROB n) : DecidablePred (InOrder s)
  | .insertInst _ _ => inferInstanceAs (Decidable (∀ i ∈ _, _))
  | .retireHead _ | .markCompleted _ _ | .squash _ _ _ | .doSquash _ _ | .setActiveThreads _ =>
      inferInstanceAs (Decidable True)

/-- The numbers of a list increase. -/
def Sorted (list : List RobInst) : Prop := (list.map RobInst.seqNum).Pairwise (· < ·)

theorem Sorted.lt {list : List RobInst} (h : Sorted list) {j k : ℕ} {inst inst' : RobInst}
    (hjk : j < k) (hj : list[j]? = some inst) (hk : list[k]? = some inst') :
    inst.seqNum < inst'.seqNum := by
  obtain ⟨hlt, rfl⟩ := List.getElem?_eq_some_iff.mp hj
  obtain ⟨hlt', rfl⟩ := List.getElem?_eq_some_iff.mp hk
  exact List.pairwise_iff_getElem.mp (List.pairwise_map.mp h) j k hlt hlt' hjk

/-- The lists are in program order, and the iterator of a thread that is done is at the end. -/
def Ordered (s : ROB n) : Prop :=
  ∀ tid, Sorted (s.instList tid) ∧ (s.doneSquashing tid = true → s.squashIt tid = .atEnd)

theorem ordered_init (p : Params) (n : ℕ) : Ordered (init p n) :=
  fun _ => ⟨List.Pairwise.nil, fun _ => rfl⟩

/-- A walk keeps the order of its thread. -/
theorem ordered_doSquash {s s' : ROB n} {tid : Fin n} {exiting : Bool}
    (hsorted : Sorted (s.instList tid))
    (hdone : s.doneSquashing tid = true → s.squashIt tid = .atEnd)
    (h : doSquash p s tid exiting = .ok s') :
    Sorted (s'.instList tid) ∧ (s'.doneSquashing tid = true → s'.squashIt tid = .atEnd) := by
  have hstarted : s.squashIt tid ≠ .atEnd := by
    intro hend
    rw [doSquash, hend] at h
    cases h
  obtain ⟨list, it, done, rfl, hnums, hit⟩ := doSquash_ok h
  simp only [Function.update_self]
  refine ⟨?_, fun hd => ?_⟩
  · rw [Sorted, hnums]
    exact hsorted
  · rcases hit hd with heq | hold
    · exact heq
    · exact absurd (hdone hold) hstarted

theorem ordered_step {s s' : ROB n} {a : Action n} (h : Ordered s) (ha : InOrder s a)
    (hstep : step p s a = .ok s') : Ordered s' := by
  intro tid
  by_cases hthread : a.thread = some tid
  · obtain ⟨hsorted, hdone⟩ := h tid
    cases a with
    | insertInst u inst =>
      obtain rfl : u = tid := Option.some.inj hthread
      rw [step, insertInst] at hstep
      dsimp only at hstep
      split_ifs at hstep
      cases hstep
      simp only [Function.update_self]
      refine ⟨?_, hdone⟩
      rw [Sorted, List.map_append]
      refine List.pairwise_append.mpr ⟨hsorted, List.pairwise_singleton _ _, ?_⟩
      intro q hq r hr
      obtain ⟨i, hi, rfl⟩ := List.mem_map.mp hq
      rw [List.map_singleton, List.mem_singleton] at hr
      exact hr ▸ ha i hi
    | retireHead u =>
      obtain rfl : u = tid := Option.some.inj hthread
      rw [step, retireHead] at hstep
      split_ifs at hstep
      split at hstep
      · cases hstep
      · next head rest hlist =>
        split_ifs at hstep
        cases hstep
        simp only [Function.update_self]
        rw [Sorted, hlist, List.map_cons] at hsorted
        refine ⟨(List.pairwise_cons.mp hsorted).2, fun hd => ?_⟩
        rw [hdone hd]
        rfl
    | markCompleted u seq =>
      obtain rfl : u = tid := Option.some.inj hthread
      cases hstep
      simp only [markCompleted, Function.update_self]
      refine ⟨?_, hdone⟩
      rw [Sorted, List.map_map]
      have hsame : RobInst.seqNum ∘ (fun i : RobInst =>
          if i.seqNum = seq then { i with canCommit := true } else i) = RobInst.seqNum := by
        funext i
        simp only [Function.comp_apply]
        split <;> rfl
      rw [hsame]
      exact hsorted
    | squash q u exiting =>
      obtain rfl : u = tid := Option.some.inj hthread
      rw [step, squash] at hstep
      dsimp only at hstep
      split_ifs at hstep
      · cases hstep
        exact ⟨hsorted, hdone⟩
      · cases hstep
        exact ⟨hsorted, fun hd => absurd
          ((Function.update_self u false s.doneSquashing).symm.trans hd) Bool.false_ne_true⟩
      · exact ordered_doSquash (by exact hsorted)
          (fun hd => absurd ((Function.update_self u false s.doneSquashing).symm.trans hd)
            Bool.false_ne_true) hstep
    | doSquash u exiting =>
      obtain rfl : u = tid := Option.some.inj hthread
      exact ordered_doSquash hsorted hdone hstep
    | setActiveThreads active => cases hthread
  · have hview := view_step hstep hthread
    simp only [view, Prod.mk.injEq] at hview
    obtain ⟨hlist, hit, -, hdone⟩ := hview
    rw [hlist, hit, hdone]
    exact h tid

/-! ## Walks -/

section

variable {list₀ : List RobInst} {s s' : ROB n} {tid : Fin n} {q : InstSeqNum} {m i : ℕ}

/-- Everything from position `m` on is younger than `q`. -/
def Above (q : InstSeqNum) (list : List RobInst) (m : ℕ) : Prop :=
  ∀ k inst, m ≤ k → list[k]? = some inst → q < inst.seqNum

/-- Everything before position `m` is at most as young as `q`. -/
def Below (q : InstSeqNum) (list : List RobInst) (m : ℕ) : Prop :=
  ∀ k inst, k < m → list[k]? = some inst → inst.seqNum ≤ q

/-- In a list in program order, what stands up to an old instruction is old. -/
theorem Sorted.below (h : Sorted list₀) {inst : RobInst} (hinst : list₀[i]? = some inst)
    (hle : inst.seqNum ≤ q) (hm : m ≤ i + 1) : Below q list₀ m := by
  intro k inst' hk hinst'
  rcases Nat.lt_or_eq_of_le (Nat.le_of_lt_succ (hk.trans_le hm)) with hlt | rfl
  · exact (h.lt hlt hinst' hinst).le.trans hle
  · rw [hinst'] at hinst
    exact Option.some.inj hinst ▸ hle

theorem exists_markFrom (m : ℕ) (hi : i < list₀.length) :
    ∃ inst inst₀, (markFrom m list₀)[i]? = some inst ∧ list₀[i]? = some inst₀ ∧
      inst.seqNum = inst₀.seqNum := by
  have hinst₀ := List.getElem?_eq_getElem hi
  have hinst := getElem?_markFrom m list₀ i
  rw [hinst₀, Option.map_some] at hinst
  refine ⟨_, _, hinst, hinst₀, ?_⟩
  split <;> rfl

/-- **The loop** extends the marked end of the list, and stops at a position next to it or at the
front. -/
theorem squashLoop_spec (fuel : ℕ) (hi : i < list₀.length) (hm : m ≤ i + 1)
    (habove : Above q list₀ m) :
    ∃ m' it atFront, squashLoop q fuel (markFrom m list₀) i = .ok (markFrom m' list₀, it, atFront) ∧
      m' ≤ m ∧ Above q list₀ m' ∧
      (atFront = true ∧ m' = 0 ∨
        atFront = false ∧ ∃ j, it = .at j ∧ j < list₀.length ∧ m' ≤ j + 1) := by
  induction fuel generalizing i m with
  | zero => exact ⟨m, .at i, false, rfl, le_rfl, habove, .inr ⟨rfl, i, rfl, hi, hm⟩⟩
  | succ fuel ih =>
    obtain ⟨inst, inst₀, hinst, hinst₀, hseq⟩ := exists_markFrom m hi
    rw [squashLoop, hinst]
    dsimp only
    by_cases hyoung : inst.seqNum > q
    · rw [if_pos hyoung]
      have hmarked : Above q list₀ (min m i) := by
        intro k inst' hk hinst'
        rcases Nat.lt_or_ge k m with hlt | hge
        · obtain rfl : k = i := by omega
          rw [hinst₀] at hinst'
          rw [← Option.some.inj hinst', ← hseq]
          exact hyoung
        · exact habove k inst' hge hinst'
      have hset : (markFrom m list₀).set i { inst with squashed := true, canCommit := true } =
          markFrom (min m i) list₀ := markFrom_set hm hinst
      rw [hset]
      cases i with
      | zero => exact ⟨min m 0, .atEnd, true, rfl, Nat.min_le_left _ _, hmarked,
          .inl ⟨rfl, Nat.min_zero m⟩⟩
      | succ i =>
        obtain ⟨m', it, atFront, hloop, hle, hrest⟩ := ih ((Nat.lt_succ_self i).trans hi)
          (Nat.min_le_right m (i + 1)) hmarked
        exact ⟨m', it, atFront, hloop, hle.trans (Nat.min_le_left _ _), hrest⟩
    · rw [if_neg hyoung]
      exact ⟨m, .at i, false, rfl, le_rfl, habove, .inr ⟨rfl, i, rfl, hi, hm⟩⟩

/-- A squash of the thread has begun: the end of its list that is marked is younger than its number,
and it is the whole of what is younger once the thread is done. -/
structure Begun (list₀ : List RobInst) (s : ROB n) (tid : Fin n) (m : ℕ) : Prop where
  list : s.instList tid = markFrom m list₀
  bound : m ≤ list₀.length
  above : Above (s.squashedSeqNum tid) list₀ m
  iter : s.doneSquashing tid = true ∧ s.squashIt tid = .atEnd ∧
      Below (s.squashedSeqNum tid) list₀ m ∨
    s.doneSquashing tid = false ∧ ∃ i, s.squashIt tid = .at i ∧ i < list₀.length ∧ m ≤ i + 1

/-- **A walk** from a valid position returns, with more of the list marked. -/
theorem doSquash_spec (hsorted : Sorted list₀) (hlist : s.instList tid = markFrom m list₀)
    (hbound : m ≤ list₀.length) (habove : Above (s.squashedSeqNum tid) list₀ m)
    (hdone : s.doneSquashing tid = false) (hit : s.squashIt tid = .at i) (hi : i < list₀.length)
    (hm : m ≤ i + 1) (exiting : Bool) :
    ∃ s', doSquash p s tid exiting = .ok s' ∧ s'.squashedSeqNum = s.squashedSeqNum ∧
      ∃ m', Begun list₀ s' tid m' := by
  obtain ⟨inst, inst₀, hinst, hinst₀, hseq⟩ := exists_markFrom m hi
  rw [doSquash, hit]
  dsimp only
  rw [hlist, hinst]
  dsimp only
  by_cases hold : inst.seqNum < s.squashedSeqNum tid
  · rw [if_pos hold]
    refine ⟨_, rfl, rfl, m, hlist, hbound, habove, .inl ⟨Function.update_self _ _ _,
      Function.update_self _ _ _, hsorted.below hinst₀ (hseq ▸ hold.le) hm⟩⟩
  · rw [if_neg hold]
    obtain ⟨m', it, atFront, hloop, hle, habove', hend⟩ := squashLoop_spec
      (if exiting then p.numEntries else p.squashWidth) hi hm habove
    rw [hloop]
    dsimp only
    unfold finishSquash
    rcases hend with ⟨rfl, rfl⟩ | ⟨rfl, j, rfl, hj, hm'⟩
    · exact ⟨_, rfl, rfl, 0, Function.update_self _ _ _, Nat.zero_le _, habove', .inl
        ⟨Function.update_self _ _ _, Function.update_self _ _ _, fun k _ hk =>
          absurd hk (Nat.not_lt_zero k)⟩⟩
    · obtain ⟨cur, cur₀, hcur, hcur₀, hcurseq⟩ := exists_markFrom m' hj
      dsimp only
      rw [if_neg Bool.false_ne_true, hcur]
      dsimp only
      by_cases hfin : cur.seqNum ≤ s.squashedSeqNum tid
      · rw [if_pos hfin]
        exact ⟨_, rfl, rfl, m', Function.update_self _ _ _, hle.trans hbound, habove', .inl
          ⟨Function.update_self _ _ _, Function.update_self _ _ _,
            hsorted.below hcur₀ (hcurseq ▸ hfin) hm'⟩⟩
      · rw [if_neg hfin]
        exact ⟨_, rfl, rfl, m', Function.update_self _ _ _, hle.trans hbound, habove', .inr
          ⟨hdone, j, Function.update_self _ _ _, hj, hm'⟩⟩

/-- **A squash** of a thread with instructions begins a walk from the youngest of them. -/
theorem squash_spec (hcons : Consistent s) (hsorted : Sorted list₀)
    (hlist : s.instList tid = markFrom m list₀) (hbound : m ≤ list₀.length)
    (habove : Above q list₀ m) (hne : list₀ ≠ []) (exiting : Bool) :
    ∃ s', squash p s q tid exiting = .ok s' ∧ s'.squashedSeqNum tid = q ∧
      ∃ m', Begun list₀ s' tid m' := by
  have hpos : 0 < list₀.length := List.length_pos_iff.mpr hne
  have hlength : (s.instList tid).length = list₀.length := by rw [hlist, length_markFrom]
  have hentries : isEmpty s tid = false := by
    rw [isEmpty, hcons.length tid, hlength]
    exact decide_eq_false hpos.ne'
  have hsome : (s.instList tid).isEmpty = false := by
    rw [← Bool.not_eq_true, List.isEmpty_iff_length_eq_zero, hlength]
    exact hpos.ne'
  rw [squash, hentries, if_neg Bool.false_ne_true]
  dsimp only
  rw [hsome, if_neg Bool.false_ne_true]
  have habove' : Above (Function.update s.squashedSeqNum tid q tid) list₀ m := by
    rw [Function.update_self]
    exact habove
  have hstart : Function.update s.squashIt tid (.at ((s.instList tid).length - 1)) tid =
      .at (list₀.length - 1) := by
    rw [Function.update_self, hlength]
  have hidle : Function.update s.doneSquashing tid false tid = false := Function.update_self _ _ _
  obtain ⟨s', hwalk, hnum, hbegun⟩ := doSquash_spec (p := p)
    (s := { s with
      robStatus := Function.update s.robStatus tid .ROBSquashing
      doneSquashing := Function.update s.doneSquashing tid false
      squashedSeqNum := Function.update s.squashedSeqNum tid q
      squashIt := Function.update s.squashIt tid (.at ((s.instList tid).length - 1)) })
    hsorted hlist hbound habove' hidle hstart (by omega) (by omega) exiting
  refine ⟨s', hwalk, ?_, hbegun⟩
  rw [hnum]
  exact Function.update_self _ _ _

theorem squash_empty (hcons : Consistent s) (hlist : s.instList tid = []) (exiting : Bool) :
    squash p s q tid exiting = .ok s := by
  have hentries : isEmpty s tid = true := by
    rw [isEmpty, hcons.length tid, hlist]
    rfl
  rw [squash, hentries, if_pos rfl]

theorem sorted_markFrom (h : Sorted list₀) (m : ℕ) : Sorted (markFrom m list₀) := by
  have hnums : (markFrom m list₀).map RobInst.seqNum = list₀.map RobInst.seqNum := by
    refine List.ext_getElem? fun k => ?_
    rw [List.getElem?_map, getElem?_markFrom, List.getElem?_map, Option.map_map]
    refine congrFun (congrArg Option.map (funext fun inst => ?_)) _
    rw [Function.comp_apply]
    split <;> rfl
  rw [Sorted, hnums]
  exact h

/-! ## Runs -/

/-- What may go on while a thread squashes: squashing, and work on other threads. -/
def SquashWork (tid : Fin n) : Action n → Prop
  | .insertInst u _ | .retireHead u | .markCompleted u _ => u ≠ tid
  | .squash _ _ _ | .doSquash _ _ | .setActiveThreads _ => True

/-- The number of a squash of the thread. -/
def squashNumber (tid : Fin n) : Action n → Option InstSeqNum
  | .squash q u _ => if u = tid then some q else none
  | _ => none

/-- How far the thread is: it was not squashed, or had nothing to squash; or a squash has begun. -/
def Phase (list₀ : List RobInst) (begun : Bool) (s : ROB n) (tid : Fin n) : Prop :=
  ((begun = true → list₀ = []) ∧ s.instList tid = list₀ ∧ s.doneSquashing tid = true ∧
    s.squashIt tid = .atEnd) ∨ (begun = true ∧ ∃ m, Begun list₀ s tid m)

/-- **One step** of squashing, or of other work. -/
theorem Phase.step {begun : Bool} {a : Action n} (h : Phase list₀ begun s tid)
    (hcons : Consistent s) (hsorted : Sorted list₀) (hwork : SquashWork tid a)
    (hnum : begun = true → list₀ ≠ [] → ∀ q ∈ squashNumber tid a, q ≤ s.squashedSeqNum tid)
    (hstep : step p s a = .ok s') :
    Phase list₀ (begun || (squashNumber tid a).isSome) s' tid ∧
      (list₀ ≠ [] →
        s'.squashedSeqNum tid = (squashNumber tid a).getD (s.squashedSeqNum tid)) := by
  by_cases hthread : a.thread = some tid
  · cases a with
    | insertInst u _ | retireHead u | markCompleted u _ =>
      exact absurd (Option.some.inj hthread) hwork
    | setActiveThreads _ => cases hthread
    | squash q u exiting =>
      obtain rfl : u = tid := Option.some.inj hthread
      have hsome : squashNumber u (.squash q u exiting) = some q := if_pos rfl
      rw [hsome, Option.isSome_some, Bool.or_true, Option.getD_some]
      rw [hsome] at hnum
      by_cases hne : list₀ = []
      · -- nothing to squash
        have hlist : s.instList u = [] := by
          rcases h with ⟨-, hlist, -⟩ | ⟨-, m, hbegun⟩
          · rw [hlist, hne]
          · rw [hbegun.list, hne]
            rfl
        cases (squash_empty hcons hlist exiting).symm.trans hstep
        rcases h with ⟨-, hlist, hdone, hend⟩ | ⟨-, hbegun⟩
        · exact ⟨.inl ⟨fun _ => hne, hlist, hdone, hend⟩, fun hc => absurd hne hc⟩
        · exact ⟨.inr ⟨rfl, hbegun⟩, fun hc => absurd hne hc⟩
      · obtain ⟨m, hlist, hbound, habove⟩ : ∃ m, s.instList u = markFrom m list₀ ∧
            m ≤ list₀.length ∧ Above q list₀ m := by
          rcases h with ⟨-, hlist, -⟩ | ⟨hbeg, m, hbegun⟩
          · refine ⟨list₀.length, by rw [hlist, markFrom_length], le_rfl,
              fun k inst hk hinst => ?_⟩
            rw [List.getElem?_eq_none hk] at hinst
            cases hinst
          · exact ⟨m, hbegun.list, hbegun.bound, fun k inst hk hinst =>
              (hnum hbeg hne q rfl).trans_lt (hbegun.above k inst hk hinst)⟩
        obtain ⟨t, ht, hseq, hbegun⟩ := squash_spec (p := p) hcons hsorted hlist hbound habove hne
          exiting
        cases ht.symm.trans hstep
        exact ⟨.inr ⟨rfl, hbegun⟩, fun _ => hseq⟩
    | doSquash u exiting =>
      obtain rfl : u = tid := Option.some.inj hthread
      have hnone : squashNumber u (.doSquash u exiting : Action n) = none := rfl
      rw [hnone, Option.isSome_none, Bool.or_false, Option.getD_none]
      have hactive : s.squashIt u ≠ .atEnd := by
        intro hend
        rw [Rob.step, doSquash, hend] at hstep
        cases hstep
      rcases h with ⟨-, -, -, hend⟩ | ⟨hbeg, m, hbegun⟩
      · exact absurd hend hactive
      · rcases hbegun.iter with ⟨-, hend, -⟩ | ⟨hdone, i, hit, hi, hm⟩
        · exact absurd hend hactive
        · obtain ⟨t, ht, hseq, hbegun'⟩ := doSquash_spec (p := p) hsorted hbegun.list hbegun.bound
            hbegun.above hdone hit hi hm exiting
          cases ht.symm.trans hstep
          exact ⟨.inr ⟨hbeg, hbegun'⟩, fun _ => congrFun hseq u⟩
  · have hnone : squashNumber tid a = none := by
      cases a with
      | squash q u exiting => exact if_neg fun heq => hthread (congrArg some heq)
      | insertInst | retireHead | markCompleted | doSquash | setActiveThreads => rfl
    have hview := view_step hstep hthread
    simp only [view, Prod.mk.injEq] at hview
    obtain ⟨hlist, hit, hseq, hdone⟩ := hview
    rw [hnone, Option.isSome_none, Bool.or_false, Option.getD_none]
    refine ⟨?_, fun _ => hseq⟩
    rcases h with ⟨hbeg, hl, hd, he⟩ | ⟨hbeg, m, hbegun⟩
    · exact .inl ⟨hbeg, hlist.trans hl, hdone.trans hd, hit.trans he⟩
    · refine .inr ⟨hbeg, m, hlist.trans hbegun.list, hbegun.bound, hseq ▸ hbegun.above, ?_⟩
      rw [hdone, hit, hseq]
      exact hbegun.iter

/-- **A run** of squashing and other work, with squash numbers that do not increase. -/
theorem Phase.run {as : List (Action n)} {begun : Bool} (h : Phase list₀ begun s tid)
    (hcons : Consistent s) (hsorted : Sorted list₀) (hwork : ∀ a ∈ as, SquashWork tid a)
    (hnums : (as.filterMap (squashNumber tid)).Pairwise (· ≥ ·))
    (hfirst : begun = true → list₀ ≠ [] →
      ∀ q ∈ as.filterMap (squashNumber tid), q ≤ s.squashedSeqNum tid)
    (hrun : Runs.run (Rob.step p) s as = .ok s') :
    Consistent s' ∧ ∃ begun', Phase list₀ begun' s' tid ∧
      (as.filterMap (squashNumber tid) ≠ [] → begun' = true) ∧ (begun = true → begun' = true) := by
  induction as generalizing s begun with
  | nil =>
    cases hrun
    exact ⟨hcons, begun, h, fun hc => absurd rfl hc, id⟩
  | cons a as ih =>
    cases hstep : Rob.step p s a with
    | error e =>
      rw [run_cons_error as hstep] at hrun
      cases hrun
    | ok t =>
      rw [run_cons_ok as hstep] at hrun
      have hmem : ∀ q ∈ squashNumber tid a, q ∈ (a :: as).filterMap (squashNumber tid) :=
        fun q hq => List.mem_filterMap.mpr ⟨a, List.mem_cons_self, hq⟩
      obtain ⟨hphase, hseq⟩ := h.step hcons hsorted (hwork a List.mem_cons_self)
        (fun hbeg hne q hq => hfirst hbeg hne q (hmem q hq)) hstep
      have hrest : ∀ q ∈ as.filterMap (squashNumber tid),
          q ∈ (a :: as).filterMap (squashNumber tid) := by
        intro q hq
        obtain ⟨b, hb, hbq⟩ := List.mem_filterMap.mp hq
        exact List.mem_filterMap.mpr ⟨b, List.mem_cons_of_mem a hb, hbq⟩
      obtain ⟨hcons', begun', hphase', hsquashed, hkept⟩ := ih hphase
        (consistent_step hcons hstep)
        (fun b hb => hwork b (List.mem_cons_of_mem a hb))
        (hnums.sublist ((List.sublist_cons_self a as).filterMap _))
        (fun hbeg hne q hq => by
          rw [hseq hne]
          cases hnumber : squashNumber tid a with
          | none =>
            rw [hnumber, Option.isSome_none, Bool.or_false] at hbeg
            exact hfirst hbeg hne q (hrest q hq)
          | some r =>
            rw [List.filterMap_cons_some hnumber] at hnums
            exact (List.pairwise_cons.mp hnums).1 q hq) hrun
      refine ⟨hcons', begun', hphase', fun hsome => ?_, fun hbeg => hkept (by rw [hbeg]; rfl)⟩
      cases hnumber : squashNumber tid a with
      | none =>
        rw [List.filterMap_cons_none hnumber] at hsome
        exact hsquashed hsome
      | some r =>
        exact hkept (by rw [hnumber, Option.isSome_some, Bool.or_true])

/-- A squash returns in every state in program order, whatever its number. -/
theorem squash_returns (hcons : Consistent s) (hsorted : Sorted (s.instList tid)) (q : InstSeqNum)
    (exiting : Bool) : ∃ s', squash p s q tid exiting = .ok s' := by
  by_cases hne : s.instList tid = []
  · exact ⟨s, squash_empty hcons hne exiting⟩
  · obtain ⟨s', hs', -⟩ := squash_spec (p := p) (q := q) hcons hsorted
      (markFrom_length (s.instList tid)).symm le_rfl
      (fun k inst hk hinst => by
        rw [List.getElem?_eq_none hk] at hinst
        cases hinst) hne exiting
    exact ⟨s', hs'⟩

end

/-- **A squash is exact.**  From a reachable state in which a thread is not squashing, run squashes
of the thread with numbers that do not increase, walks, and any work on other threads.  Whenever the
thread is done, its instructions above the squash number are marked and nothing else has changed.  A
step changes no other thread, and no squash or walk leaves the list: a walk that has nothing to do
is stopped by its assertion. -/
theorem squash_exact (p : Params) {s₀ s : ROB n} {tid : Fin n} {as : List (Action n)}
    (h₀ : Reached InOrder (step p) (init p n) s₀) (hdone₀ : s₀.doneSquashing tid = true)
    (hwork : ∀ a ∈ as, SquashWork tid a)
    (hnums : (as.filterMap (squashNumber tid)).Pairwise (· ≥ ·))
    (hrun : run (step p) s₀ as = .ok s) :
    (s.doneSquashing tid = true → as.filterMap (squashNumber tid) ≠ [] →
      s.instList tid = (s₀.instList tid).map (RobInst.squashedTo (s.squashedSeqNum tid))) ∧
    (∀ a s', step p s a = .ok s' → ∀ u, a.thread ≠ some u → s'.instList u = s.instList u) ∧
    (∀ q exiting, ∃ s', squash p s q tid exiting = .ok s') ∧
    ∀ exiting, if s.doneSquashing tid then doSquash p s tid exiting = .error .squashItAtEnd
      else ∃ s', doSquash p s tid exiting = .ok s' := by
  obtain ⟨hinv, hordered⟩ := h₀.invariant (P := fun s => Inv p s ∧ Ordered s)
    (fun _ _ _ hs ha hstep => ⟨inv_step hs.1 hstep, ordered_step hs.2 ha hstep⟩)
    ⟨inv_init p n, ordered_init p n⟩
  obtain ⟨hsorted, hend⟩ := hordered tid
  have hphase : Phase (s₀.instList tid) false s₀ tid :=
    .inl ⟨nofun, rfl, hdone₀, hend hdone₀⟩
  obtain ⟨hcons, begun, hphase, hsquashed, -⟩ := hphase.run hinv.consistent hsorted hwork hnums
    nofun hrun
  have hlist : Sorted (s.instList tid) := by
    rcases hphase with ⟨-, hl, -⟩ | ⟨-, m, hbegun⟩
    · exact hl ▸ hsorted
    · rw [hbegun.list]
      exact sorted_markFrom hsorted m
  refine ⟨fun hdone hsome => ?_, fun a s' hstep u hu => ?_,
    fun q exiting => squash_returns hcons hlist q exiting, fun exiting => ?_⟩
  · rcases hphase with ⟨hempty, hl, -⟩ | ⟨-, m, hbegun⟩
    · rw [hl, hempty (hsquashed hsome)]
      rfl
    · rcases hbegun.iter with ⟨-, -, hbelow⟩ | ⟨hidle, -⟩
      · rw [hbegun.list]
        exact markFrom_eq_map hbegun.above hbelow
      · exact absurd (hdone.symm.trans hidle) Bool.false_ne_true.symm
  · exact congrArg Prod.fst (view_step hstep hu)
  · have hstop : s.squashIt tid = .atEnd → doSquash p s tid exiting = .error .squashItAtEnd := by
      intro hit
      rw [doSquash, hit]
    rcases hphase with ⟨-, -, hdone, hit⟩ | ⟨-, m, hbegun⟩
    · rw [if_pos hdone]
      exact hstop hit
    · rcases hbegun.iter with ⟨hdone, hit, -⟩ | ⟨hidle, i, hit, hi, hm⟩
      · rw [if_pos hdone]
        exact hstop hit
      · rw [if_neg (by rw [hidle]; exact Bool.false_ne_true)]
        obtain ⟨s', hs', -⟩ := doSquash_spec (p := p) hsorted hbegun.list hbegun.bound hbegun.above
          hidle hit hi hm exiting
        exact ⟨s', hs'⟩

/-- A buffer of `8` entries that squashes `2` instructions in a cycle, for examples. -/
def narrow : Params := ⟨.Dynamic, 8, 2, 0, by decide⟩

/-- Five instructions are squashed down to the third, in two cycles, and the squash is started again
with the second. -/
theorem squash_exact_restarted :
    ∃ s₀ s : ROB 1, run (step narrow) (init narrow 1) ((List.range' 1 5).map fun seqNum =>
        Action.insertInst 0 ⟨seqNum, false, false⟩) = .ok s₀ ∧
      run (step narrow) s₀ [.squash 3 0 false, .squash 2 0 false, .doSquash 0 false] = .ok s ∧
      s.instList 0 = (s₀.instList 0).map (RobInst.squashedTo (s.squashedSeqNum 0)) := by
  obtain ⟨s₀, h₀, hdone₀, s, hs, hdone⟩ : ∃ s₀ : ROB 1,
      run (step narrow) (init narrow 1) ((List.range' 1 5).map fun seqNum =>
        Action.insertInst 0 ⟨seqNum, false, false⟩) = .ok s₀ ∧
      (s₀.doneSquashing 0 = true ∧ ∃ s, run (step narrow) s₀
        [.squash 3 0 false, .squash 2 0 false, .doSquash 0 false] = .ok s ∧
          s.doneSquashing 0 = true) := by
    decide +kernel
  have hexact := squash_exact narrow ⟨_, by decide +kernel, h₀⟩ hdone₀
    (by simp [SquashWork]) (by decide) hs
  exact ⟨s₀, s, h₀, hs, hexact.1 hdone (by decide)⟩

end Gem5.Rob
