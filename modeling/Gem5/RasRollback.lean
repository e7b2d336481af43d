/-
# Rolling the return address stack back

A squash that removes every branch predicted since some point gives the thread's return
address stack the logical content it had at that point, unless a return that was predicted
not taken is resolved as taken in between: its record says that it used the stack, but not
what it popped.
-/
import Gem5.BPredUnit

namespace Gem5.BranchPrediction

open Runs

variable {PC : Type} {n : ℕ} [NeZero n]

/-! ## Views of the stack -/

/-- What is compared of a stack: the index of its top, and its logical content. -/
abbrev View (PC : Type) (n : ℕ) := Fin n × List PC

/-- The view of a stack. -/
def ReturnAddrStack.view (ras : ReturnAddrStack PC n) : View PC n := (ras.tos, ras.live)

namespace ReturnAddrStack

variable (ras : ReturnAddrStack PC n)

theorem live_length : ras.live.length = ras.usedEntries := by
  rw [live, List.length_map, List.length_range]

/-- Going down from the entry above goes through the same entries, one later. -/
theorem above_sub_succ (t : Fin n) (i : ℕ) :
    t + 1 - Fin.ofNat n (i + 1) = t - Fin.ofNat n i := by
  have hsucc : Fin.ofNat n (i + 1) = Fin.ofNat n i + 1 := by
    ext
    simp [Fin.val_add]
  rw [hsucc, add_sub_add_right_eq_sub]

/-- The entry above the top is not in use unless all are. -/
theorem above_ne {t : Fin n} {i : ℕ} (hi : i + 1 < n) : t - Fin.ofNat n i ≠ t + 1 := by
  intro heq
  have hzero : Fin.ofNat n (i + 1) = 0 := by
    rw [← above_sub_succ, sub_eq_self] at heq
    exact heq
  have hval := congrArg Fin.val hzero
  rw [Fin.val_ofNat, Nat.mod_eq_of_lt hi, Fin.val_zero] at hval
  exact Nat.succ_ne_zero i hval

variable {ras}

/-- **A push** puts the address on top. -/
theorem view_push (hroom : ras.live.length < n) (a : PC) :
    (ras.push a).view = (ras.tos + 1, a :: ras.live) := by
  rw [live_length] at hroom
  have hlive : (ras.push a).live = a :: ras.live := by
    simp only [live, push, if_pos hroom.ne, List.range_succ_eq_map, List.map_cons, List.map_map]
    congr 1
    · have hzero : Fin.ofNat n 0 = 0 := rfl
      rw [hzero, sub_zero, Function.update_self]
    · refine List.map_congr_left fun i hi => ?_
      have hlt := List.mem_range.mp hi
      show Function.update _ _ _ (ras.tos + 1 - Fin.ofNat n (i + 1)) = _
      rw [above_sub_succ, Function.update_of_ne (above_ne (by omega))]
  rw [view, hlive]
  rfl

/-- A restored entry on the entry above is a push. -/
theorem view_restore (hroom : ras.live.length < n) (a : PC) :
    (ras.restore (ras.tos + 1) a).view = (ras.tos + 1, a :: ras.live) :=
  view_push hroom a

/-- A stack in use is its top and what is below. -/
theorem live_eq_cons (hpos : 0 < ras.live.length) :
    ras.live = ras.top :: ras.pop.live := by
  rw [live_length] at hpos
  obtain ⟨u, hu⟩ := Nat.exists_eq_add_of_lt hpos
  rw [zero_add] at hu
  simp only [live, pop, hu, if_pos (Nat.succ_pos u), Nat.add_sub_cancel, List.range_succ_eq_map,
    List.map_cons, List.map_map]
  congr 1
  · have hzero : Fin.ofNat n 0 = 0 := rfl
    rw [hzero, sub_zero, top]
  · refine List.map_congr_left fun i _ => congrArg ras.addrStack ?_
    show ras.tos - Fin.ofNat n (i + 1) = _
    rw [← above_sub_succ (ras.tos - 1), sub_add_cancel]

/-- **A pop** takes the top away. -/
theorem view_pop {t : Fin n} {a : PC} {l : List PC} (h : ras.view = (t + 1, a :: l)) :
    ras.pop.view = (t, l) := by
  obtain ⟨htos, hlive⟩ := Prod.mk.inj h
  have hcons : ras.live = ras.top :: ras.pop.live := live_eq_cons (hlive ▸ Nat.succ_pos _)
  rw [hlive, List.cons.injEq] at hcons
  rw [view, ← hcons.2]
  show (ras.tos - 1, l) = _
  rw [htos, add_sub_cancel_right]

end ReturnAddrStack

/-! ## What a record undoes -/

/-- Undoing the record leads from the view `v` to the view `w`. -/
def Undoes (r : PredictorHistory PC n) (v w : View PC n) : Prop :=
  if r.usedRAS then
    v.1 + 1 = r.RASIndex ∧ v.2.length < n ∧ w = (r.RASIndex, r.RASTarget :: v.2)
  else if r.wasCall && r.pushedRAS then ∃ a, v = (w.1 + 1, a :: w.2)
  else v = w

variable {r : PredictorHistory PC n} {w : View PC n} {ras : ReturnAddrStack PC n} {late : Set ℕ}
  {u u' : BPredUnit PC n}

/-- **Undoing** a record in the stack does what the record says. -/
theorem undo_view (h : Undoes r ras.view w) : (undo r ras).view = w := by
  unfold Undoes at h
  unfold undo
  by_cases hused : r.usedRAS
  · rw [if_pos hused] at h ⊢
    obtain ⟨hindex, hroom, rfl⟩ := h
    rw [← hindex]
    exact ReturnAddrStack.view_restore hroom r.RASTarget
  rw [if_neg hused] at h ⊢
  by_cases hpushed : r.wasCall && r.pushedRAS
  · rw [if_pos hpushed] at h ⊢
    obtain ⟨a, ha⟩ := h
    exact ReturnAddrStack.view_pop ha
  · rw [if_neg hpushed] at h ⊢
    exact h

/-- The record of a branch that was predicted with the view `w`, while the view is `v`.
`late` are the returns that were predicted not taken. -/
structure Entry (late : Set ℕ) (r : PredictorHistory PC n) (v w : View PC n) : Prop where
  undoes : Undoes r v w
  used : r.usedRAS = true → r.wasReturn = true
  kind : r.wasReturn = true → r.wasCall = false
  room : w.2.length ≤ n
  /-- a return that does not use the stack has its top saved, or was predicted not taken -/
  saved : r.wasReturn = true → r.usedRAS = false → r.seqNum ∉ late →
    ∃ l, w = (r.RASIndex, r.RASTarget :: l)

/-- A return that did not use the stack left it alone. -/
theorem Entry.unused {v : View PC n} (h : Entry late r v w) (hret : r.wasReturn = true)
    (hused : r.usedRAS = false) : v = w := by
  have hundoes := h.undoes
  rwa [Undoes, hused, h.kind hret, Bool.false_and, if_neg Bool.false_ne_true,
    if_neg Bool.false_ne_true] at hundoes

/-- The stack must have room for a call, and an entry for a return. -/
def Nests (inst : StaticInst PC) (ans : Answers PC) (ras : ReturnAddrStack PC n) : Prop :=
  predictsTaken inst ans = true →
    (inst.isReturn = true → 0 < ras.usedEntries) ∧
    (inst.isReturn = false → inst.isCall = true → ras.usedEntries < n)

section Predictions

variable [Zero PC] {late : Set ℕ} {inst : StaticInst PC} {seqNum : ℕ} {pc : PC}
  {ans : Answers PC} {ras : ReturnAddrStack PC n}

omit [Zero PC] in
/-- A record that says nothing was pushed or popped, when nothing was. -/
theorem Entry.untouched {r : PredictorHistory PC n} {v : View PC n} (hroom : v.2.length ≤ n)
    (hused : r.usedRAS = false) (hpushed : (r.wasCall && r.pushedRAS) = false)
    (hkind : r.wasReturn = true → r.wasCall = false)
    (hsaved : r.wasReturn = true → r.seqNum ∉ late → ∃ l, v = (r.RASIndex, r.RASTarget :: l)) :
    Entry late r v v where
  undoes := by
    rw [Undoes, hused, hpushed, if_neg Bool.false_ne_true, if_neg Bool.false_ne_true]
  used := fun h => absurd (hused.symm.trans h) Bool.false_ne_true
  kind := hkind
  room := hroom
  saved := fun hret _ hnot => hsaved hret hnot

omit [Zero PC] in
/-- The record of a call whose address is on the stack. -/
theorem Entry.call {r : PredictorHistory PC n} (hroom : ras.live.length < n)
    (hused : r.usedRAS = false) (hcall : r.wasCall = true) (hpushed : r.pushedRAS = true)
    (hret : r.wasReturn = false) : Entry late r (ras.push pc).view ras.view where
  undoes := by
    rw [Undoes, hused, hcall, hpushed, if_neg Bool.false_ne_true, Bool.and_self, if_pos rfl]
    exact ⟨pc, ReturnAddrStack.view_push hroom pc⟩
  used := fun h => absurd (hused.symm.trans h) Bool.false_ne_true
  kind := fun h => absurd (hret.symm.trans h) Bool.false_ne_true
  room := hroom.le
  saved := fun h => absurd (hret.symm.trans h) Bool.false_ne_true

/-- A return predicted taken. -/
theorem predictReturn_entry (hpos : 0 < ras.live.length) (taken : Bool) :
    Entry late (predictReturn inst pc (.create seqNum pc taken) ras).record
      ras.pop.view ras.view := by
  have hlive := ReturnAddrStack.live_eq_cons hpos
  have hroom : ras.live.length ≤ n := ras.live_length.trans_le ras.used_le
  have hview : ras.view = (ras.topIdx, ras.top :: ras.pop.live) := by
    rw [← hlive]
    rfl
  exact {
    undoes := by
      show _ ∧ _ ∧ _
      refine ⟨sub_add_cancel ras.tos 1, ?_, hview⟩
      show ras.pop.live.length < n
      rw [hlive, List.length_cons] at hroom
      exact hroom
    used := fun _ => rfl
    kind := fun _ => rfl
    room := hroom
    saved := fun _ h => absurd h (by exact nofun) }

/-- A branch other than a return, predicted taken. -/
theorem predictTarget_entry (hroom : inst.isCall = true → ras.live.length < n) (taken : Bool) :
    Entry late (predictTarget inst pc ans (.create seqNum pc taken) ras).record
      (predictTarget inst pc ans (.create seqNum pc taken) ras).ras.view ras.view := by
  have hle : ras.view.2.length ≤ n := ras.live_length.trans_le ras.used_le
  cases hcall : inst.isCall with
  | false =>
    cases hans : ans.target !(inst.isDirectCtrl || ans.iPred.isNone) with
    | some target =>
      simp only [predictTarget, hans, hcall, Bool.false_eq_true, if_false]
      exact .untouched hle rfl rfl (fun _ => rfl) fun h => absurd h Bool.false_ne_true
    | none =>
      simp only [predictTarget, hans, hcall, predictMiss, Bool.false_and, Bool.false_eq_true,
        if_false]
      exact .untouched hle rfl rfl (fun _ => rfl) fun h => absurd h Bool.false_ne_true
  | true =>
    cases hans : ans.target !(inst.isDirectCtrl || ans.iPred.isNone) with
    | some target =>
      simp only [predictTarget, hans, hcall, if_true]
      exact .call (hroom hcall) rfl rfl rfl rfl
    | none =>
      simp only [predictTarget, hans, hcall, predictMiss, if_true, Bool.true_and]
      cases huncond : inst.isUncondCtrl with
      | true => exact .call (hroom hcall) rfl rfl rfl rfl
      | false =>
        -- the entry of a conditional call was given back at once
        have hview : (ras.push pc).pop.view = ras.view :=
          ReturnAddrStack.view_pop (ReturnAddrStack.view_push (hroom hcall) pc)
        simp only [Bool.not_false, if_true, hview]
        exact .untouched hle rfl rfl (fun h => absurd h Bool.false_ne_true)
          fun h => absurd h Bool.false_ne_true

/-- **Every prediction can be undone.** -/
theorem predict_entry (hnests : Nests inst ans ras)
    (hlate : inst.isReturn = true → predictsTaken inst ans = false → seqNum ∈ late) :
    Entry late (predict inst seqNum pc ans ras).record
      (predict inst seqNum pc ans ras).ras.view ras.view := by
  unfold predict
  cases htaken : predictsTaken inst ans with
  | false =>
    rw [if_neg Bool.false_ne_true]
    exact .untouched (ras.live_length.trans_le ras.used_le) rfl rfl (fun _ => rfl)
      fun hret hnot => absurd (hlate hret htaken) hnot
  | true =>
    obtain ⟨hreturn, hcall⟩ := hnests htaken
    rw [if_pos rfl]
    cases hret : inst.isReturn with
    | true =>
      rw [if_pos rfl]
      exact predictReturn_entry (ras.live_length.symm ▸ hreturn hret) true
    | false =>
      rw [if_neg Bool.false_ne_true]
      exact predictTarget_entry (fun h => ras.live_length.symm ▸ hcall hret h) true

/-- A record keeps the sequence number of its branch. -/
theorem predict_seqNum :
    (predict inst seqNum pc ans ras).record.seqNum = seqNum := by
  unfold predict
  split
  · split
    · rfl
    · unfold predictTarget
      dsimp only
      split <;> rfl
  · rfl

end Predictions

/-! ## Resolving a misprediction -/

/-- **A fix-up keeps the record undoable**: the branch itself goes the other way, and its
record says so, except for a return that did not save what it pops now. -/
theorem resolve_entry (h : Entry late r ras.view w) (corrTarget : PC) (actually_taken : Bool)
    (hlate : actually_taken = true → r.seqNum ∉ late) :
    Entry late (resolve r corrTarget actually_taken ras).1
      (resolve r corrTarget actually_taken ras).2.view w := by
  cases actually_taken with
  | true =>
    by_cases hreturn : r.wasReturn = true ∧ r.usedRAS = false
    · obtain ⟨hret, hused⟩ := hreturn
      obtain ⟨l, rfl⟩ := h.saved hret hused (hlate rfl)
      have hpop : ras.pop.view = (r.RASIndex - 1, l) :=
        ReturnAddrStack.view_pop (a := r.RASTarget) <| by
          rw [sub_add_cancel]
          exact h.unused hret hused
      simp only [resolve, hret, hused, Bool.not_false, Bool.and_true, if_true, hpop]
      exact { h with
        undoes := ⟨sub_add_cancel r.RASIndex 1, h.room, rfl⟩
        used := fun _ => rfl
        kind := fun _ => h.kind hret
        saved := fun _ hnot => absurd hnot (by exact nofun) }
    · have hkeep : (r.wasReturn && !r.usedRAS) = false := by
        cases hret : r.wasReturn <;> cases hused : r.usedRAS <;> simp_all
      simp only [resolve, hkeep, Bool.false_eq_true, if_true, if_false]
      exact { h with }
  | false =>
    cases hused : r.usedRAS with
    | true =>
      have hundo := undo_view h.undoes
      rw [undo, if_pos hused] at hundo
      have hundoes := h.undoes
      rw [Undoes, if_pos hused] at hundoes
      have hret := h.used hused
      simp only [resolve, hused, Bool.false_eq_true, if_false, if_true, hundo]
      refine .untouched h.room rfl ?_ h.kind fun _ _ => ⟨_, hundoes.2.2⟩
      simp only [h.kind hret, Bool.false_and]
    | false =>
      cases hpushed : r.wasCall && r.pushedRAS with
      | true =>
        have hundo := undo_view h.undoes
        rw [undo, hused, if_neg Bool.false_ne_true, if_pos hpushed] at hundo
        simp only [resolve, hused, hpushed, Bool.false_eq_true, if_false, if_true, hundo]
        refine .untouched h.room rfl (Bool.and_false _) h.kind fun hret => ?_
        rw [h.kind hret] at hpushed
        exact absurd hpushed Bool.false_ne_true
      | false =>
        have hundoes := h.undoes
        rw [Undoes, hused] at hundoes
        simp only [resolve, hused, hpushed, Bool.false_eq_true, if_false]
        exact { h with
          undoes := hundoes
          used := fun h' => absurd h' Bool.false_ne_true
          saved := fun hret _ hnot => h.saved hret hused hnot }

theorem resolve_seqNum (r : PredictorHistory PC n) (corrTarget : PC) (actually_taken : Bool)
    (ras : ReturnAddrStack PC n) :
    (resolve r corrTarget actually_taken ras).1.seqNum = r.seqNum := by
  unfold resolve
  dsimp only
  split
  · split <;> rfl
  · split
    · rfl
    · split <;> rfl

/-! ## Histories -/

/-- Undoing the records one after the other leads from `v` to `w`. -/
inductive Rewinds (late : Set ℕ) : List (PredictorHistory PC n) → View PC n → View PC n → Prop
  | nil (v : View PC n) : Rewinds late [] v v
  | cons {r : PredictorHistory PC n} {rs : List (PredictorHistory PC n)} {v u w : View PC n}
      (hr : Entry late r v u) (hrs : Rewinds late rs u w) : Rewinds late (r :: rs) v w

/-- **A squash** rewinds the younger records, and stops at the first that stays. -/
theorem squash_rewinds {squashed_sn : ℕ} {older : List (PredictorHistory PC n)}
    (holder : ∀ r ∈ older, r.seqNum ≤ squashed_sn) {newer : List (PredictorHistory PC n)}
    (h : Rewinds late newer ras.view w) :
    ∃ newer' ras', squashHistory squashed_sn (newer ++ older) ras = (newer' ++ older, ras') ∧
      newer' <:+ newer ∧ (∀ r ∈ newer'.head?, r.seqNum ≤ squashed_sn) ∧
      Rewinds late newer' ras'.view w := by
  induction newer generalizing ras with
  | nil =>
    refine ⟨[], ras, ?_, List.suffix_rfl, nofun, h⟩
    cases older with
    | nil => rfl
    | cons r older => exact if_neg (not_lt.mpr (holder r List.mem_cons_self))
  | cons r newer ih =>
    by_cases hlt : r.seqNum > squashed_sn
    · have hundone : Rewinds late newer (undo r ras).view w := by
        cases h with
        | cons hr hrs =>
          rw [undo_view hr.undoes]
          exact hrs
      obtain ⟨newer', ras', hsquash, hsuffix, hhead, hrew⟩ := ih hundone
      refine ⟨newer', ras', ?_, hsuffix.trans (List.suffix_cons r newer), hhead, hrew⟩
      rw [List.cons_append, squashHistory, if_pos hlt]
      exact hsquash
    · refine ⟨r :: newer, ras, if_neg hlt, List.suffix_rfl, fun r' hr' => ?_, h⟩
      rw [List.head?_cons, Option.mem_some_iff] at hr'
      exact hr' ▸ not_lt.mp hlt

/-- Undoing the branches predicted since the point `b` leads to the view `w`. -/
def Since (late : Set ℕ) (b : ℕ) (w : View PC n) (th : ThreadPredictor PC n) : Prop :=
  ∃ newer older, th.predHist = newer ++ older ∧ (∀ r ∈ newer, b < r.seqNum) ∧
    (∀ r ∈ older, r.seqNum ≤ b) ∧ Rewinds late newer th.ras.view w

/-! ## Calls since a point -/

/-- The calls for a thread since a point: the branches predicted up to it, `b` the youngest,
are neither removed nor fixed up, the later ones are not committed, and the stack neither
overflows nor underflows. -/
def Allowed (tid b : ℕ) (u : BPredUnit PC n) : Action PC → Prop
  | .predict t inst seqNum _ ans => t = tid → b < seqNum ∧ Nests inst ans (u t).ras
  | .squash t squashed_sn => t = tid → b ≤ squashed_sn
  | .mispredict t squashed_sn _ _ => t = tid → b < squashed_sn
  | .update t done_sn => t = tid → done_sn ≤ b

/-- Some return that is predicted not taken is resolved as taken. -/
def ResolvesLate (tid : ℕ) (as : List (Action PC)) : Prop :=
  ∃ inst seqNum pc ans corrTarget, .predict tid inst seqNum pc ans ∈ as ∧
    inst.isReturn = true ∧ predictsTaken inst ans = false ∧
    .mispredict tid seqNum corrTarget true ∈ as

/-- The returns that are predicted not taken are in `late`, and are not resolved as taken. -/
def Respects (late : Set ℕ) (tid : ℕ) : Action PC → Prop
  | .predict t inst seqNum _ ans =>
      t = tid → inst.isReturn = true → predictsTaken inst ans = false → seqNum ∈ late
  | .mispredict t squashed_sn _ actually_taken =>
      t = tid → actually_taken = true → squashed_sn ∉ late
  | _ => True

section Calls

variable {late : Set ℕ} {b : ℕ} {w : View PC n} {th : ThreadPredictor PC n}

/-- A new prediction is one more to undo. -/
theorem Since.predict [Zero PC] (h : Since late b w th) {inst : StaticInst PC} {seqNum : ℕ}
    {pc : PC} {ans : Answers PC} (hnew : b < seqNum) (hnests : Nests inst ans th.ras)
    (hlate : inst.isReturn = true → predictsTaken inst ans = false → seqNum ∈ late) :
    Since late b w ⟨(predict inst seqNum pc ans th.ras).ras,
      (predict inst seqNum pc ans th.ras).record :: th.predHist⟩ := by
  obtain ⟨newer, older, hhist, hnewer, holder, hrew⟩ := h
  refine ⟨_ :: newer, older, congrArg (_ :: ·) hhist, List.forall_mem_cons.mpr ⟨?_, hnewer⟩,
    holder, .cons (predict_entry hnests hlate) hrew⟩
  rw [predict_seqNum]
  exact hnew

/-- A squash of later branches leaves fewer to undo, none younger than its number. -/
theorem Since.squash (h : Since late b w th) {squashed_sn : ℕ} (hle : b ≤ squashed_sn) :
    ∃ newer older, (th.squash squashed_sn).predHist = newer ++ older ∧
      (∀ r ∈ newer, b < r.seqNum) ∧ (∀ r ∈ older, r.seqNum ≤ b) ∧
      (∀ r ∈ newer.head?, r.seqNum ≤ squashed_sn) ∧
      Rewinds late newer (th.squash squashed_sn).ras.view w := by
  obtain ⟨newer, older, hhist, hnewer, holder, hrew⟩ := h
  obtain ⟨newer', ras', hsquash, hsuffix, hhead, hrew'⟩ :=
    squash_rewinds (fun r hr => (holder r hr).trans hle) hrew
  rw [ThreadPredictor.squash, hhist, hsquash]
  exact ⟨newer', older, rfl, fun r hr => hnewer r (hsuffix.subset hr), holder, hhead, hrew'⟩

/-- **A squash to the point** gives the stack of the point back. -/
theorem Since.squash_point (h : Since late b w th) :
    (th.squash b).ras.view = w ∧ ∀ r ∈ (th.squash b).predHist, r.seqNum ≤ b := by
  obtain ⟨newer, older, hhist, hnewer, holder, hhead, hrew⟩ := h.squash le_rfl
  cases newer with
  | nil =>
    rw [hhist]
    cases hrew
    exact ⟨rfl, holder⟩
  | cons r newer =>
    exact absurd (hhead r rfl) (not_le.mpr (hnewer r List.mem_cons_self))

/-- A misprediction of a later branch fixes up a record that can still be undone. -/
theorem Since.mispredict (h : Since late b w th) {squashed_sn : ℕ} (hlt : b < squashed_sn)
    {corrTarget : PC} {actually_taken : Bool}
    (hlate : actually_taken = true → squashed_sn ∉ late) {th' : ThreadPredictor PC n}
    (hfix : (th.squash squashed_sn).fixUp squashed_sn corrTarget actually_taken = .ok th') :
    Since late b w th' := by
  obtain ⟨newer, older, hhist, hnewer, holder, -, hrew⟩ := h.squash hlt.le
  rw [ThreadPredictor.fixUp, hhist] at hfix
  cases newer with
  | nil =>
    cases older with
    | nil =>
      cases hfix
      exact ⟨[], [], hhist, nofun, nofun, hrew⟩
    | cons r older =>
      -- the front is a branch up to the point, so the assertion failed
      obtain ⟨_, hreq, -⟩ := bind_eq_ok.mp hfix
      have hseq := of_decide_eq_true (require_eq_ok.mp hreq)
      have hle := holder r List.mem_cons_self
      omega
  | cons r newer =>
    obtain ⟨_, hreq, hret⟩ := bind_eq_ok.mp hfix
    have hseq : r.seqNum = squashed_sn := of_decide_eq_true (require_eq_ok.mp hreq)
    cases hret
    cases hrew with
    | cons hr hrs =>
      obtain ⟨hr', hnewer'⟩ := List.forall_mem_cons.mp hnewer
      exact ⟨_ :: newer, older, rfl, List.forall_mem_cons.mpr
        ⟨(resolve_seqNum r corrTarget actually_taken _).symm ▸ hr', hnewer'⟩, holder,
        .cons (resolve_entry hr corrTarget actually_taken (hseq ▸ hlate)) hrs⟩

omit [NeZero n] in
/-- What the predicate refuses is not dropped from behind. -/
theorem rdropWhile_append_of_not {α : Type*} {p : α → Bool} {xs : List α} (ys : List α)
    (h : ∀ x ∈ xs, p x = false) : (xs ++ ys).rdropWhile p = xs ++ ys.rdropWhile p := by
  induction ys using List.reverseRecOn with
  | nil =>
    rw [List.append_nil, List.rdropWhile_nil, List.append_nil, List.rdropWhile_eq_self_iff]
    intro hne hlast
    exact absurd (h _ (List.getLast_mem hne)) (by rw [hlast]; exact nofun)
  | append_singleton ys y ih =>
    rw [← List.append_assoc, List.rdropWhile_concat, List.rdropWhile_concat]
    by_cases hy : p y
    · rw [if_pos hy, if_pos hy, ih]
    · rw [if_neg hy, if_neg hy, List.append_assoc]

/-- A commit takes branches up to the point away. -/
theorem Since.update (h : Since late b w th) {done_sn : ℕ} (hle : done_sn ≤ b) :
    Since late b w (th.update done_sn) := by
  obtain ⟨newer, older, hhist, hnewer, holder, hrew⟩ := h
  refine ⟨newer, older.rdropWhile (·.seqNum ≤ done_sn), ?_, hnewer, fun r hr => ?_, hrew⟩
  · rw [ThreadPredictor.update, hhist]
    exact rdropWhile_append_of_not _ fun r hr => by
      have hlt := hnewer r hr
      exact decide_eq_false (by omega)
  · exact holder r ((List.rdropWhile_prefix _ older).subset hr)

/-- **A call for the thread** keeps the point within reach. -/
theorem Since.call [Zero PC] (h : Since late b w th) {a : Action PC} {u : BPredUnit PC n}
    (hth : u a.tid = th) (hadm : Allowed a.tid b u a) (hlate : Respects late a.tid a)
    {th' : ThreadPredictor PC n} (hcall : th.call a = .ok th') : Since late b w th' := by
  cases a with
  | predict t inst seqNum pc ans =>
    obtain ⟨hnew, hnests⟩ := hadm rfl
    cases hcall
    rw [show u t = th from hth] at hnests
    exact h.predict hnew hnests (hlate rfl)
  | squash t squashed_sn =>
    cases hcall
    obtain ⟨newer, older, hhist, hnewer, holder, -, hrew⟩ := h.squash (hadm rfl)
    exact ⟨newer, older, hhist, hnewer, holder, hrew⟩
  | mispredict t squashed_sn corrTarget actually_taken =>
    exact h.mispredict (hadm rfl) (hlate rfl) hcall
  | update t done_sn =>
    cases hcall
    exact h.update (hadm rfl)

end Calls

/-! ## Runs -/

/-- A call changes its own thread only. -/
theorem step_eq_ok [Zero PC] {a : Action PC} (h : step u a = .ok u') :
    ∃ th, (u a.tid).call a = .ok th ∧ u' = Function.update u a.tid th := by
  obtain ⟨th, hcall, hret⟩ := bind_eq_ok.mp h
  cases hret
  exact ⟨th, hcall, rfl⟩

theorem step_other [Zero PC] {a : Action PC} (h : step u a = .ok u') {t : ℕ} (ht : t ≠ a.tid) :
    u' t = u t := by
  obtain ⟨th, -, rfl⟩ := step_eq_ok h
  exact Function.update_of_ne ht th u

/-- A step keeps the point of a thread within reach. -/
theorem since_step [Zero PC] {tid b : ℕ} {a : Action PC} (h : Since late b w (u tid))
    (hadm : Allowed tid b u a) (hlate : Respects late tid a) (hstep : step u a = .ok u') :
    Since late b w (u' tid) := by
  by_cases ht : tid = a.tid
  · subst ht
    obtain ⟨th, hcall, rfl⟩ := step_eq_ok hstep
    rw [Function.update_self]
    exact h.call rfl hadm hlate hcall
  · rw [step_other hstep ht]
    exact h

/-- Without a late resolution, the actions respect the returns that are predicted not taken. -/
theorem respects_of_not_late {tid : ℕ} {as : List (Action PC)} (h : ¬ ResolvesLate tid as) :
    ∃ late : Set ℕ, ∀ a ∈ as, Respects late tid a := by
  refine ⟨{seqNum | ∃ inst pc ans, .predict tid inst seqNum pc ans ∈ as ∧
    inst.isReturn = true ∧ predictsTaken inst ans = false}, fun a ha => ?_⟩
  cases a with
  | predict t inst seqNum pc ans =>
    rintro rfl hret hnot
    exact ⟨inst, pc, ans, ha, hret, hnot⟩
  | squash t squashed_sn => trivial
  | mispredict t squashed_sn corrTarget actually_taken =>
    rintro rfl rfl ⟨inst, pc, ans, hpred, hret, hnot⟩
    exact h ⟨inst, squashed_sn, pc, ans, corrTarget, hpred, hret, hnot, ha⟩
  | update t done_sn => trivial

/-- **The return address stack is rolled back exactly.**  Whatever a unit does since a point,
with calls and returns that nest and without a return that was predicted not taken and is
resolved as taken, a squash of every branch since that point gives the thread's stack back
its content, and changes no other thread. -/
theorem squash_restores [Zero PC] {tid b : ℕ} {s t : BPredUnit PC n} {as : List (Action PC)}
    (hpast : ∀ r ∈ (s tid).predHist, r.seqNum ≤ b)
    (hadm : Admitted (Allowed tid b) step s as) (hlate : ¬ ResolvesLate tid as)
    (hrun : run step s as = .ok t) :
    ∃ u, step t (.squash tid b) = .ok u ∧ (∀ r ∈ (u tid).predHist, r.seqNum ≤ b) ∧
      (u tid).ras.live = (s tid).ras.live ∧ (u tid).ras.tos = (s tid).ras.tos ∧
      ∀ t' ≠ tid, u t' = t t' := by
  obtain ⟨late, hrespects⟩ := respects_of_not_late hlate
  have hstart : Since late b (s tid).ras.view (s tid) :=
    ⟨[], (s tid).predHist, rfl, nofun, hpast, .nil _⟩
  have hsince : Since late b (s tid).ras.view (t tid) := by
    refine run_invariant (P := fun u : BPredUnit PC n => Since late b (s tid).ras.view (u tid))
      (fun u a u' h ha hstep => ?_) hstart (hadm.and_forall hrespects) hrun
    exact since_step h ha.1 ha.2 hstep
  obtain ⟨hview, hhist⟩ := hsince.squash_point
  have hself : Function.update t tid ((t tid).squash b) tid = (t tid).squash b :=
    Function.update_self tid _ t
  refine ⟨Function.update t tid ((t tid).squash b), rfl, hself.symm ▸ hhist, ?_, ?_,
    fun t' ht => Function.update_of_ne ht _ t⟩
  · rw [hself]
    exact (Prod.mk.inj hview).2
  · rw [hself]
    exact (Prod.mk.inj hview).1

/-! ## A late return -/

/-- A direct call, a conditional branch and a conditional return. -/
def call : StaticInst ℕ := ⟨true, true, false, true, fun _ ret => ret + 4, (· + 4)⟩
def branch : StaticInst ℕ := ⟨false, false, false, true, fun _ ret => ret + 4, (· + 4)⟩
def condReturn : StaticInst ℕ := ⟨false, false, true, false, fun _ ret => ret + 4, (· + 4)⟩

/-- Answers for a branch to `target`, and for one that is not taken. -/
def takenTo (target : ℕ) : Answers ℕ := ⟨true, some target, none⟩
def notTaken : Answers ℕ := ⟨false, none, none⟩

instance (tid b : ℕ) (u : BPredUnit PC n) :
    (a : Action PC) → Decidable (Allowed tid b u a)
  | .predict t inst seqNum _ ans => inferInstanceAs
      (Decidable (t = tid → b < seqNum ∧ (predictsTaken inst ans = true →
        (inst.isReturn = true → 0 < (u t).ras.usedEntries) ∧
        (inst.isReturn = false → inst.isCall = true → (u t).ras.usedEntries < n))))
  | .squash t squashed_sn => inferInstanceAs (Decidable (t = tid → b ≤ squashed_sn))
  | .mispredict t squashed_sn _ _ => inferInstanceAs (Decidable (t = tid → b < squashed_sn))
  | .update t done_sn => inferInstanceAs (Decidable (t = tid → done_sn ≤ b))

/-- A unit with stacks of four entries, after a call at 16. -/
def afterCall : Except Fault (BPredUnit ℕ 4) :=
  step BPredUnit.init (.predict 0 call 1 16 (takenTo 100))

/-- A call, a return that is predicted taken, and its correction. -/
def earlyReturn : List (Action ℕ) :=
  [.predict 0 call 2 100 (takenTo 200), .predict 0 condReturn 3 200 (takenTo 0),
    .mispredict 0 3 204 false]

theorem squash_restores_early :
    ∃ s t u, afterCall = .ok s ∧ run step s earlyReturn = .ok t ∧
      step t (.squash 0 1) = .ok u ∧ (∀ r ∈ (u 0).predHist, r.seqNum ≤ 1) ∧
      (u 0).ras.live = (s 0).ras.live ∧ (u 0).ras.tos = (s 0).ras.tos ∧
      ∀ t' ≠ 0, u t' = t t' := by
  obtain ⟨s, hs, hpast, hadm, t, ht, -⟩ : ∃ s, afterCall = .ok s ∧
      (∀ r ∈ (s 0).predHist, r.seqNum ≤ 1) ∧ Admitted (Allowed 0 1) step s earlyReturn ∧
      ∃ t, run step s earlyReturn = .ok t ∧ True := by
    decide +kernel
  have hlate : ¬ ResolvesLate 0 earlyReturn := by
    rintro ⟨inst, seqNum, pc, ans, corrTarget, -, -, -, hmis⟩
    simp [earlyReturn] at hmis
  obtain ⟨u, hu⟩ := squash_restores hpast hadm hlate ht
  exact ⟨s, t, u, hs, ht, hu⟩

/-- A conditional return that is predicted not taken, after a branch, and is then taken. -/
def lateReturn : List (Action ℕ) :=
  [.predict 0 branch 2 100 notTaken, .predict 0 condReturn 3 104 notTaken, .mispredict 0 3 20 true]

/-- Squashing the late return and the branch before it puts a zero where the address of the
call was. -/
theorem squash_loses_call :
    ∃ s, afterCall = .ok s ∧ (∀ r ∈ (s 0).predHist, r.seqNum ≤ 1) ∧
      Admitted (Allowed 0 1) step s lateReturn ∧ (s 0).ras.live = [16] ∧
      ∃ t, run step s lateReturn = .ok t ∧ (t 0).ras.live = [] ∧
        ∃ u, step t (.squash 0 1) = .ok u ∧ (u 0).ras.live = [0] := by
  decide +kernel

end Gem5.BranchPrediction
