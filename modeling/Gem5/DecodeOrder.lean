/-
# Decode loses nothing and keeps fetch in step

Decode takes the instructions of a thread in the order of their delivery, and only squashed ones do
not go on to rename: those marked as squashed, all that decode holds when commit squashes, and all
that it holds behind a branch that it finds mispredicted.

The handshake is one equation: when fetch has read all signals on the way to it, its stall flag of a
thread says whether decode has the thread blocked.  That it reads them without an assertion failing
is part of the equation.
-/
import Gem5.DecodeStage

open Runs

namespace Gem5.Pipeline

variable {n : ℕ}

namespace DecodeLane

open FetchDecode

/-! ## What leaves a thread -/

/-- The delivered instructions of a thread: those that have left decode and those it holds. -/
def content (th : DecodeLane n) : List (FetchedInst n) :=
  th.log.map (·.1) ++ th.skidBuffer ++ th.insts

/-- An instruction that leaves decode goes to rename if it is not marked as squashed, and is dropped
only if it is squashed, with `before` what has left decode before it in the cycle. -/
def Accounted (c : DecodeCycle n) (tid : Fin n) (before : List (FetchedInst n × Bool))
    (e : FetchedInst n × Bool) : Prop :=
  if e.2 then c.isSquashed e.1 = false
  else c.isSquashed e.1 = true ∨ c.commitSquash tid = true ∨
    ∃ branch, (branch, true) ∈ before ∧ branch.mispredicted = true

/-- Everything that leaves decode in a cycle is accounted for. -/
def Justified (c : DecodeCycle n) (tid : Fin n) (new : List (FetchedInst n × Bool)) : Prop :=
  ∀ before e after, new = before ++ e :: after → Accounted c tid before e

theorem justified_nil (c : DecodeCycle n) (tid : Fin n) : Justified c tid [] :=
  fun _ _ _ h => absurd h.symm (List.append_ne_nil_of_right_ne_nil _ nofun)

variable {c : DecodeCycle n} {tid : Fin n} {l l' : List (FetchedInst n × Bool)}
  {th th' th₁ : DecodeLane n} {sent : List (FetchedInst n)} {b : Bool}

theorem justified_singleton {e : FetchedInst n × Bool} (h : Accounted c tid [] e) :
    Justified c tid [e] := by
  intro before e' after heq
  cases before with
  | nil =>
    rw [List.nil_append, List.cons.injEq] at heq
    exact heq.1 ▸ h
  | cons b before =>
    rw [List.cons_append, List.cons.injEq] at heq
    exact absurd heq.2.symm (List.append_ne_nil_of_right_ne_nil _ nofun)

theorem justified_append (h : Justified c tid l)
    (h' : ∀ before e after, l' = before ++ e :: after → Accounted c tid (l ++ before) e) :
    Justified c tid (l ++ l') := by
  intro before e after heq
  rcases List.append_eq_append_iff.mp heq with ⟨cs, rfl, hcs⟩ | ⟨cs, hl, hcs⟩
  · exact h' cs e after hcs
  · cases cs with
    | nil =>
      rw [List.append_nil] at hl
      rw [← hl, ← List.append_nil l]
      exact h' [] e after hcs.symm
    | cons d cs =>
      rw [List.cons_append, List.cons.injEq] at hcs
      exact h before e cs (hcs.1 ▸ hl)

theorem Accounted.mono {e : FetchedInst n × Bool} (h : Accounted c tid l e) (hl : l ⊆ l') :
    Accounted c tid l' e := by
  unfold Accounted at h ⊢
  split_ifs at h ⊢
  · exact h
  · exact h.imp_right (Or.imp_right fun ⟨branch, hmem, hm⟩ => ⟨branch, hl hmem, hm⟩)

theorem Justified.append (h : Justified c tid l) (h' : Justified c tid l') :
    Justified c tid (l ++ l') :=
  justified_append h fun before e after heq =>
    (h' before e after heq).mono (List.subset_append_right _ _)

theorem sentOf_append (l l' : List (FetchedInst n × Bool)) :
    sentOf (l ++ l') = sentOf l ++ sentOf l' := by
  rw [sentOf, List.filter_append, List.map_append, sentOf, sentOf]

theorem sentOf_dropped (l : List (FetchedInst n)) :
    sentOf (l.map fun inst => (inst, false)) = [] := by
  rw [sentOf, List.map_eq_nil_iff, List.filter_eq_nil_iff]
  intro e he
  obtain ⟨inst, _, rfl⟩ := List.mem_map.mp he
  exact Bool.false_ne_true

theorem map_fst_dropped (l : List (FetchedInst n)) :
    (l.map fun inst => (inst, false)).map Prod.fst = l := by
  rw [List.map_map]
  exact List.map_id l

/-- From `th` to `th'` the delivered instructions stay in their order, what leaves decode is
accounted for, and `sent` is what of it goes to rename. -/
structure Passes (c : DecodeCycle n) (tid : Fin n) (sent : List (FetchedInst n))
    (th th' : DecodeLane n) : Prop where
  content : th'.content = th.content
  log : ∃ new, th'.log = th.log ++ new ∧ Justified c tid new ∧ sentOf new = sent

theorem Passes.of_log (hcontent : th'.content = th.content) (hlog : th'.log = th.log) :
    Passes c tid [] th th' :=
  ⟨hcontent, [], by rw [hlog, List.append_nil], justified_nil c tid, rfl⟩

theorem Passes.trans {sent' : List (FetchedInst n)} {th'' : DecodeLane n}
    (h : Passes c tid sent th th') (h' : Passes c tid sent' th' th'') :
    Passes c tid (sent ++ sent') th th'' := by
  obtain ⟨new, hlog, hjust, hsent⟩ := h.log
  obtain ⟨new', hlog', hjust', hsent'⟩ := h'.log
  refine ⟨h'.content.trans h.content, new ++ new', ?_, hjust.append hjust', ?_⟩
  · rw [hlog', hlog, List.append_assoc]
  · rw [sentOf_append, hsent, hsent']

/-! ## The handshake -/

/-- The thread is blocked, or not all of its skid buffer has been decoded yet. -/
def isBlocked (th : DecodeLane n) : Bool :=
  th.decodeStatus = .Blocked || th.decodeStatus = .Unblocking

/-- Fetch learns from the signals of the cycle whether the thread is blocked, if `b` says whether it
was before. -/
def Tells (b : Bool) (th : DecodeLane n) : Prop :=
  readBlockSignals b th.toFetch = .ok th.isBlocked

/-- Only a blocked thread has something in its skid buffer. -/
def Skids (th : DecodeLane n) : Prop := th.isBlocked = false → th.skidBuffer = []

theorem readBlockSignals_iff {b' : Bool} {sig : BlockSignals} :
    readBlockSignals b sig = .ok b' ↔
      if sig.decodeUnblock then sig.decodeBlock = false ∧ b = true ∧ b' = false
      else b' = (sig.decodeBlock || b) := by
  obtain ⟨block, unblock⟩ := sig
  cases block <;> cases unblock <;> cases b <;> cases b' <;> decide

theorem tells_quiet (hsig : th.toFetch = {}) (hb : th.isBlocked = b) : Tells b th := by
  rw [Tells, readBlockSignals_iff, hsig, hb]
  rfl

theorem decodeStatus_setBlocked (th : DecodeLane n) : th.setBlocked.decodeStatus = .Blocked := by
  unfold DecodeLane.setBlocked
  split_ifs with hst
  · rfl
  · rfl
  · exact not_not.mp hst

/-- Blocking tells fetch that the thread is blocked. -/
theorem Tells.setBlocked (h : Tells b th) :
    Tells b th.setBlocked := by
  rw [Tells, readBlockSignals_iff] at h
  unfold DecodeLane.setBlocked
  split_ifs with hst hu
  · rw [if_pos hu] at h
    refine readBlockSignals_iff.mpr ?_
    show true = (th.toFetch.decodeBlock || b)
    rw [h.2.1, Bool.or_true]
  · refine readBlockSignals_iff.mpr ?_
    simp only [hu, Bool.false_eq_true, if_false, Bool.true_or]
    rfl
  · exact readBlockSignals_iff.mpr h

/-- The unblock signal may be raised. -/
def CanUnblock (th : DecodeLane n) : Prop :=
  th.toFetch.decodeBlock = false ∧ (th.toFetch.decodeUnblock = true ∨ th.isBlocked = true)

theorem Tells.of_unblock (h : Tells b th) (hcan : th.CanUnblock)
    (hblock : th'.toFetch.decodeBlock = th.toFetch.decodeBlock)
    (hunblock : th'.toFetch.decodeUnblock = true) (hst : th'.isBlocked = false) : Tells b th' := by
  rw [Tells, readBlockSignals_iff] at h ⊢
  rw [if_pos hunblock, hblock]
  refine ⟨hcan.1, ?_, hst⟩
  split_ifs at h with hu
  · exact h.2.1
  · have hb := hcan.2.resolve_left hu
    rw [hb, hcan.1, Bool.false_or] at h
    exact h.symm

theorem Tells.unblock (h : Tells b th) (hcan : th.skidBuffer = [] → th.CanUnblock) :
    Tells b th.unblock := by
  unfold DecodeLane.unblock
  split_ifs with hskid
  · exact h.of_unblock (hcan (List.isEmpty_iff.mp hskid)) rfl rfl rfl
  · exact h

theorem skids_unblock (h : th.Skids) : th.unblock.Skids := by
  unfold DecodeLane.unblock
  split_ifs with hskid
  · exact fun _ => List.isEmpty_iff.mp hskid
  · exact h

theorem passes_unblock (c : DecodeCycle n) (tid : Fin n) (th : DecodeLane n) :
    Passes c tid [] th th.unblock := by
  unfold DecodeLane.unblock
  split_ifs
  · exact .of_log rfl rfl
  · exact .of_log rfl rfl

/-! ## The operations on a thread -/

/-- The failures that decode itself can raise. -/
def OfDecode : DecodeFail → Prop
  | .unblockNotStalled | .blockAndUnblock => False
  | _ => True

/-- What `skidInsert` does when its assertion holds. -/
def skidded (th : DecodeLane n) : DecodeLane n :=
  { th with insts := [], skidBuffer := th.skidBuffer ++ th.insts }

theorem passes_skidded (c : DecodeCycle n) (tid : Fin n) (th : DecodeLane n) :
    Passes c tid [] th th.skidded := by
  refine .of_log ?_ rfl
  show th.log.map (·.1) ++ (th.skidBuffer ++ th.insts) ++ [] = _
  rw [List.append_nil, ← List.append_assoc]
  rfl

theorem skidInsert_ends (p : DecodeParams n) (th : DecodeLane n) :
    Ends (· = th.skidded) OfDecode (th.skidInsert p) := by
  rw [skidInsert]
  exact (ends_require trivial).bind fun _ _ => rfl

theorem passes_setBlocked (c : DecodeCycle n) (tid : Fin n) (th : DecodeLane n) :
    Passes c tid [] th th.setBlocked := by
  unfold setBlocked
  split_ifs
  · exact .of_log rfl rfl
  · exact .of_log rfl rfl
  · exact .of_log rfl rfl

/-- **Blocking** moves what is left to the skid buffer and tells fetch. -/
theorem block_ends (p : DecodeParams n) (c : DecodeCycle n) (tid : Fin n) (h : Tells b th) :
    Ends (fun th' => Passes c tid [] th th' ∧ Tells b th' ∧ th'.decodeStatus = .Blocked ∧
        th'.skidBuffer = th.skidBuffer ++ th.insts) OfDecode (th.block p) := by
  rw [block]
  refine (skidInsert_ends p th).bind fun th' hth' => ?_
  rw [hth']
  have hskid : Tells b th.skidded := h
  refine ⟨(passes_skidded c tid th).trans (passes_setBlocked c tid _), hskid.setBlocked,
    decodeStatus_setBlocked _, ?_⟩
  show th.skidded.setBlocked.skidBuffer = _
  unfold setBlocked
  split_ifs <;> rfl

theorem isBlocked_of_status (h : th.decodeStatus = .Blocked ∨ th.decodeStatus = .Unblocking) :
    th.isBlocked = true := by
  rw [isBlocked, Bool.or_eq_true, decide_eq_true_eq, decide_eq_true_eq]
  exact h

theorem not_isBlocked_of_status (h : ¬(th.decodeStatus = .Blocked ∨ th.decodeStatus = .Unblocking))
    :
    th.isBlocked = false := by
  rw [not_or] at h
  rw [isBlocked, decide_eq_false h.1, decide_eq_false h.2]
  rfl

theorem Skids.of_isBlocked (h : th.isBlocked = true) : th.Skids :=
  fun h' => absurd (h.symm.trans h') (by decide)

/-- Clearing a thread drops what it holds, in the order of the delivery. -/
theorem passes_clear (th : DecodeLane n)
    (h : Justified c tid ((th.skidBuffer ++ th.insts).map fun inst => (inst, false))) :
    Passes c tid [] th th.clear := by
  refine ⟨?_, _, rfl, h, sentOf_dropped _⟩
  show (th.log ++ _).map (·.1) ++ [] ++ [] = _
  rw [List.map_append, map_fst_dropped, List.append_nil, List.append_nil, ← List.append_assoc]
  rfl

/-- A squash unblocks a thread that was blocked. -/
theorem tells_squashUnblock (h : Tells b th)
    (hcan : th.isBlocked = true → th.toFetch.decodeBlock = false) :
    Tells b th.squashUnblock.clear := by
  unfold squashUnblock
  split_ifs with hst
  · have hb := isBlocked_of_status hst
    exact h.of_unblock ⟨hcan hb, .inr hb⟩ rfl rfl rfl
  · rw [Tells, not_isBlocked_of_status hst] at h
    exact h

theorem readStallSignals_ends (c : DecodeCycle n) (tid : Fin n) (th : DecodeLane n) :
    Ends (fun th' => ∃ b, th' = { th with stallsRename := b }) OfDecode
      (th.readStallSignals c tid) := by
  unfold readStallSignals
  dsimp only
  split_ifs
  · exact (ends_require trivial).bind fun _ _ => ⟨_, rfl⟩
  · exact ⟨_, rfl⟩

/-- What is known of a thread once its signals have been checked. -/
structure Checked (c : DecodeCycle n) (tid : Fin n) (b : Bool) (th th' : DecodeLane n) : Prop where
  passes : Passes c tid [] th th'
  tells : Tells b th'
  skids : th'.Skids
  quiet : th'.decodeStatus = .Unblocking → th'.toFetch = {}

/-- **Checking the signals** of a thread that has not signalled anything yet. -/
theorem updateStatus_ends (p : DecodeParams n) (c : DecodeCycle n) (tid : Fin n)
    (hsig : th.toFetch = {}) (hskids : th.Skids) :
    Ends (Checked c tid th.isBlocked th) OfDecode (th.updateStatus p c tid) := by
  have htells : Tells th.isBlocked th := tells_quiet hsig rfl
  unfold updateStatus
  split_ifs with hsq hstall hblocked hsquash
  · have hunblock : th.squash p = th.squashUnblock.clear := by
      unfold squash
      rw [if_neg]
      rw [hsig]
      exact fun h => Bool.false_ne_true h.2.2
    rw [hunblock]
    refine ⟨?_, tells_squashUnblock htells fun _ => by rw [hsig], fun _ => rfl, nofun⟩
    have hquiet : Passes c tid [] th th.squashUnblock := by
      unfold squashUnblock
      split_ifs <;> exact .of_log rfl rfl
    refine hquiet.trans (passes_clear _ fun before e after heq => ?_)
    have hmem : e ∈ (th.squashUnblock.skidBuffer ++ th.squashUnblock.insts).map
        fun inst => (inst, false) := heq ▸ List.mem_append_right _ List.mem_cons_self
    obtain ⟨inst, _, rfl⟩ := List.mem_map.mp hmem
    exact .inr (.inl hsq)
  · refine (block_ends p c tid htells).mono fun th' ⟨hp, ht, hst, _⟩ => ?_
    exact ⟨hp, ht, .of_isBlocked (isBlocked_of_status (.inl hst)),
      fun h => absurd (hst.symm.trans h) nofun⟩
  · -- a blocked thread starts to unblock; it is done at once when nothing is left to decode
    let th₁ : DecodeLane n := { th with decodeStatus := .Unblocking }
    have hb : th.isBlocked = true := isBlocked_of_status (.inl hblocked)
    have htells₁ : Tells th.isBlocked th₁ := tells_quiet hsig hb.symm
    have hpass : Passes c tid [] th th₁ := .of_log rfl rfl
    refine ⟨hpass.trans (passes_unblock c tid th₁),
      htells₁.unblock fun _ => ⟨by rw [hsig], .inr rfl⟩, skids_unblock (.of_isBlocked rfl), ?_⟩
    unfold DecodeLane.unblock
    split_ifs
    · exact nofun
    · exact fun _ => hsig
  · have hb : th.isBlocked = false := by
      rw [isBlocked, hsquash]
      rfl
    have hrunning : ({ th with decodeStatus := .Running } : DecodeLane n).isBlocked = false := rfl
    exact ⟨.of_log rfl rfl, tells_quiet hsig (hrunning.trans hb.symm), fun _ => hskids hb, nofun⟩
  · exact ⟨.of_log rfl rfl, htells, hskids, fun _ => hsig⟩

theorem checkSignalsAndUpdate_ends (p : DecodeParams n) (c : DecodeCycle n) (tid : Fin n)
    (hsig : th.toFetch = {}) (hskids : th.Skids) :
    Ends (Checked c tid th.isBlocked th) OfDecode (th.checkSignalsAndUpdate p c tid) := by
  unfold checkSignalsAndUpdate
  refine (readStallSignals_ends c tid th).bind fun th' hth' => ?_
  obtain ⟨b, rfl⟩ := hth'
  let th₁ : DecodeLane n := { th with stallsRename := b }
  have hpass : Passes c tid [] th th₁ := .of_log rfl rfl
  have hskids₁ : th₁.Skids := hskids
  have hsig₁ : th₁.toFetch = {} := hsig
  refine (updateStatus_ends p c tid hsig₁ hskids₁).mono fun th' h => ?_
  exact ⟨hpass.trans h.passes, h.tells, h.skids, h.quiet⟩

/-- The loop takes a first part of its queue, and if it stops at a mispredicted branch, then that
has gone to rename. -/
theorem decodeLoop_ends (c : DecodeCycle n) (tid : Fin n) (w : ℕ) (l : List (FetchedInst n)) :
    Ends (fun out => l = out.taken.map (·.1) ++ out.rest ∧ Justified c tid out.taken ∧
        (out.mispredict = true → ∃ branch, (branch, true) ∈ out.taken ∧
          branch.mispredicted = true)) OfDecode (decodeLoop c w l) := by
  induction l generalizing w with
  | nil =>
    unfold decodeLoop
    exact ⟨rfl, justified_nil c tid, nofun⟩
  | cons inst l ih =>
    cases w with
    | zero => exact ⟨rfl, justified_nil c tid, nofun⟩
    | succ w =>
      unfold decodeLoop
      split_ifs with hsq hpanic hmis
      · refine (ih (w + 1)).bind fun out ⟨hl, hj, hb⟩ => ⟨?_, ?_, fun h => ?_⟩
        · rw [hl]
          rfl
        · have hone : Justified c tid [(inst, false)] := justified_singleton (.inl hsq)
          exact hone.append hj
        · obtain ⟨branch, hmem, hm⟩ := hb h
          exact ⟨branch, List.mem_cons_of_mem _ hmem, hm⟩
      · trivial
      · refine ⟨rfl, justified_singleton ?_, fun _ => ⟨inst, List.mem_cons_self, hmis⟩⟩
        exact Bool.eq_false_iff.mpr hsq
      · refine (ih w).bind fun out ⟨hl, hj, hb⟩ => ⟨?_, ?_, fun h => ?_⟩
        · rw [hl]
          rfl
        · have hone : Justified c tid [(inst, true)] :=
            justified_singleton (Bool.eq_false_iff.mpr hsq)
          exact hone.append hj
        · obtain ⟨branch, hmem, hm⟩ := hb h
          exact ⟨branch, List.mem_cons_of_mem _ hmem, hm⟩

/-- What is known of a thread once instructions have been decoded, if it was unblocking. -/
structure Decoded (c : DecodeCycle n) (tid : Fin n) (b : Bool) (sent : List (FetchedInst n))
    (th th' : DecodeLane n) : Prop where
  passes : Passes c tid sent th th'
  tells : Tells b th'
  skids : th'.Skids
  canUnblock : th.decodeStatus = .Unblocking → th'.skidBuffer = [] → th'.CanUnblock
  insts : th.decodeStatus = .Unblocking → th'.isBlocked = false → th'.insts = []

/-- Writing back what the loop has left takes its part of the queue to the log. -/
theorem passes_setToDecode {unblocking : Bool} {out : LoopEnd n}
    (hskid : unblocking = false → th.skidBuffer = [])
    (hout : th.toDecode unblocking = out.taken.map (·.1) ++ out.rest)
    (hj : Justified c tid out.taken) :
    Passes c tid (sentOf out.taken) th (th.setToDecode unblocking out) := by
  cases unblocking with
  | false =>
    have hinsts : th.insts = out.taken.map (·.1) ++ out.rest := hout
    refine ⟨?_, out.taken, rfl, hj, rfl⟩
    show (th.log ++ out.taken).map (·.1) ++ th.skidBuffer ++ out.rest = _
    rw [content, hskid rfl, hinsts, List.map_append, List.append_nil, List.append_nil,
      List.append_assoc]
  | true =>
    have hinsts : th.skidBuffer = out.taken.map (·.1) ++ out.rest := hout
    refine ⟨?_, out.taken, rfl, hj, rfl⟩
    show (th.log ++ out.taken).map (·.1) ++ out.rest ++ th.insts = _
    rw [content, hinsts, List.map_append, List.append_assoc (th.log.map _)]

/-- A mispredicted branch that has gone to rename accounts for everything behind it. -/
theorem passes_squashMispredicted (h : Passes c tid sent th th')
    (hbranch : ∃ new branch, th'.log = th.log ++ new ∧ Justified c tid new ∧ sentOf new = sent ∧
      (branch, true) ∈ new ∧ branch.mispredicted = true) :
    Passes c tid sent th th'.squashMispredicted := by
  obtain ⟨new, branch, hlog, hj, hsent, hmem, hm⟩ := hbranch
  have hsame : th'.squashUnblock.log = th'.log ∧ th'.squashUnblock.skidBuffer = th'.skidBuffer ∧
      th'.squashUnblock.insts = th'.insts := by
    unfold squashUnblock
    split_ifs <;> exact ⟨rfl, rfl, rfl⟩
  refine ⟨?_, new ++ (th'.skidBuffer ++ th'.insts).map fun inst => (inst, false), ?_, ?_, ?_⟩
  · rw [← h.content]
    show (th'.squashUnblock.log ++ _).map (·.1) ++ [] ++ [] = _
    rw [hsame.1, hsame.2.1, hsame.2.2, List.map_append, map_fst_dropped, List.append_nil,
      List.append_nil, ← List.append_assoc]
    rfl
  · show th'.squashUnblock.log ++ _ = _
    rw [hsame.1, hsame.2.1, hsame.2.2, hlog, List.append_assoc]
  · refine justified_append hj fun before e after heq => ?_
    have hdropped : e ∈ (th'.skidBuffer ++ th'.insts).map fun inst => (inst, false) :=
      heq ▸ List.mem_append_right _ List.mem_cons_self
    obtain ⟨inst, _, rfl⟩ := List.mem_map.mp hdropped
    exact .inr (.inr ⟨branch, List.mem_append_left _ hmem, hm⟩)
  · rw [sentOf_append, sentOf_dropped, List.append_nil, hsent]

theorem decodeStatus_setToDecode (unblocking : Bool) (out : LoopEnd n) (th : DecodeLane n) :
    (th.setToDecode unblocking out).decodeStatus = th.decodeStatus ∧
      (th.setToDecode unblocking out).toFetch = th.toFetch := by
  cases unblocking <;> exact ⟨rfl, rfl⟩

/-- After a mispredicted branch nothing is left. -/
theorem decoded_mispredict (hpass : Passes c tid sent th th₁.squashMispredicted)
    (htells : Tells b th₁) (hsame : th₁.decodeStatus = th.decodeStatus)
    (hquiet : th₁.isBlocked = true → th₁.toFetch.decodeBlock = false) :
    Decoded c tid b sent th th₁.squashMispredicted := by
  refine ⟨hpass, tells_squashUnblock htells hquiet, fun _ => rfl, fun hun _ => ?_, fun _ _ => rfl⟩
  have hst : th₁.decodeStatus = .Blocked ∨ th₁.decodeStatus = .Unblocking := .inr (hsame.trans hun)
  have hblock := hquiet (isBlocked_of_status hst)
  rw [squashMispredicted, squashUnblock, if_pos hst]
  exact ⟨hblock, .inl rfl⟩

/-- Without one, what the width does not suffice for is blocked. -/
theorem blockRest_ends (p : DecodeParams n) {unblocking : Bool} (hpass : Passes c tid sent th th₁)
    (htells : Tells b th₁) (hskids : th₁.Skids)
    (hquiet : th.decodeStatus = .Unblocking → th₁.CanUnblock ∧ th₁.isBlocked = true) :
    Ends (fun th' => Decoded c tid b sent th th') OfDecode (th₁.blockRest p unblocking) := by
  unfold blockRest
  split_ifs with hrest
  · refine ⟨hpass, htells, hskids, fun hun _ => (hquiet hun).1, fun hun hb => ?_⟩
    exact absurd ((hquiet hun).2.symm.trans hb) (by decide)
  · refine (block_ends p c tid htells).mono fun th' ⟨hp, ht, hst, hskid⟩ => ?_
    have hb := isBlocked_of_status (.inl hst)
    have hpass' := hpass.trans hp
    rw [List.append_nil] at hpass'
    refine ⟨hpass', ht, .of_isBlocked hb, fun _ hnil => ?_, fun _ hb' => ?_⟩
    · rw [hskid, List.append_eq_nil_iff] at hnil
      refine absurd (List.isEmpty_iff.mpr ?_) hrest
      cases unblocking
      · exact hnil.2
      · exact hnil.1
    · exact absurd (hb.symm.trans hb') (by decide)

/-- **Decoding the instructions of a thread** that is not blocked. -/
theorem decodeInsts_ends (p : DecodeParams n) (c : DecodeCycle n) (tid : Fin n) (k : ℕ)
    (htells : Tells b th) (hskids : th.Skids)
    (hquiet : th.decodeStatus = .Unblocking → th.toFetch = {}) (hst : th.decodeStatus ≠ .Blocked) :
    Ends (fun r => Decoded c tid b r.2 th r.1) OfDecode (th.decodeInsts p c k) := by
  have hrunning (h : th.decodeStatus ≠ .Unblocking) : th.isBlocked = false :=
    not_isBlocked_of_status fun h' => h'.elim hst h
  unfold decodeInsts
  dsimp only
  split_ifs with hempty
  · refine ⟨.of_log rfl rfl, htells, hskids, fun hun _ => ?_, fun hun hb => ?_⟩
    · exact ⟨by rw [hquiet hun], .inr (isBlocked_of_status (.inr hun))⟩
    · exact absurd ((isBlocked_of_status (.inr hun)).symm.trans hb) (by decide)
  · refine (decodeLoop_ends c tid _ _).bind fun out ⟨hout, hj, hbranch⟩ => ?_
    have hpass := passes_setToDecode (fun h => hskids (hrunning (of_decide_eq_false h))) hout hj
    obtain ⟨hstatus, hsig⟩ :=
      decodeStatus_setToDecode (decide (th.decodeStatus = .Unblocking)) out th
    have hsame : (th.setToDecode (decide (th.decodeStatus = .Unblocking)) out).isBlocked =
        th.isBlocked := by rw [isBlocked, hstatus, isBlocked]
    have htells₁ : Tells b (th.setToDecode (decide (th.decodeStatus = .Unblocking)) out) := by
      rw [Tells, hsig, hsame]
      exact htells
    cases hm : out.mispredict with
    | true =>
      obtain ⟨branch, hmem, hmis⟩ := hbranch hm
      have hlog : (th.setToDecode (decide (th.decodeStatus = .Unblocking)) out).log =
          th.log ++ out.taken := by
        unfold setToDecode
        split_ifs <;> rfl
      have hdone := decoded_mispredict
        (passes_squashMispredicted hpass ⟨out.taken, branch, hlog, hj, rfl, hmem, hmis⟩)
        htells₁ hstatus fun hb => by
          by_cases hun : th.decodeStatus = .Unblocking
          · rw [hsig, hquiet hun]
          · rw [hsame, hrunning hun] at hb
            cases hb
      rw [if_pos rfl, blockRest, if_pos]
      · exact hdone
      · cases decide (th.decodeStatus = .Unblocking) <;> rfl
    | false =>
      rw [if_neg Bool.false_ne_true]
      refine (blockRest_ends p hpass htells₁ (fun hb => ?_) fun hun => ?_).bind fun th' h => h
      · have hrun : th.decodeStatus ≠ .Unblocking := fun hun => by
          rw [hsame, isBlocked_of_status (.inr hun)] at hb
          cases hb
        rw [decide_eq_false hrun]
        exact hskids (hrunning hrun)
      · have hb := hsame.trans (isBlocked_of_status (.inr hun))
        exact ⟨⟨by rw [hsig, hquiet hun], .inr hb⟩, hb⟩

/-- What is known of a thread at the end of a cycle. -/
structure Ticked (c : DecodeCycle n) (tid : Fin n) (b : Bool) (sent : List (FetchedInst n))
    (th th' : DecodeLane n) : Prop where
  passes : Passes c tid sent th th'
  tells : Tells b th'
  skids : th'.Skids

/-- **Decode for one thread**, after its signals have been checked. -/
theorem decode_ends (p : DecodeParams n) (k : ℕ) (skidsEmpty : Bool) (h : Checked c tid b th th₁) :
    Ends (fun r => Ticked c tid b r.2 th r.1) OfDecode (th₁.decode p c k skidsEmpty) := by
  have hsame : Ticked c tid b [] th th₁ := ⟨h.passes, h.tells, h.skids⟩
  have hinsts (hst : th₁.decodeStatus ≠ .Blocked) :=
    decodeInsts_ends p c tid k h.tells h.skids h.quiet hst
  unfold decode
  cases hst : th₁.decodeStatus with
  | Running =>
    exact (hinsts (by rw [hst]; nofun)).mono fun r hr =>
      ⟨h.passes.trans hr.passes, hr.tells, hr.skids⟩
  | Idle =>
    exact (hinsts (by rw [hst]; nofun)).mono fun r hr =>
      ⟨h.passes.trans hr.passes, hr.tells, hr.skids⟩
  | Unblocking =>
    refine (ends_require trivial).bind fun _ _ => ?_
    refine (hinsts (by rw [hst]; nofun)).bind fun ⟨th₂, sent⟩ hr => ?_
    have hpass := h.passes.trans hr.passes
    unfold finishUnblocking
    split_ifs
    · refine Ends.bind (P := fun th₃ => th₃ = th₂.skidded.unblock) ?_ fun th₃ hth₃ => ?_
      · exact (skidInsert_ends p th₂).bind fun th₃ hth₃ => congrArg _ hth₃
      · rw [hth₃]
        have hskidded : th₂.skidded.Skids := fun hb => by
          show th₂.skidBuffer ++ th₂.insts = []
          rw [hr.skids hb, hr.insts hst hb]
          rfl
        have htells : Tells b th₂.skidded := hr.tells
        have hdone := ((hpass.trans (passes_skidded c tid th₂)).trans (passes_unblock c tid _))
        rw [List.append_nil, List.append_nil] at hdone
        refine ⟨hdone, htells.unblock fun hnil => ?_, skids_unblock hskidded⟩
        exact hr.canUnblock hst (List.append_eq_nil_iff.mp hnil).1
    · have hdone := hpass.trans (passes_unblock c tid th₂)
      rw [List.append_nil] at hdone
      exact ⟨hdone, hr.tells.unblock (hr.canUnblock hst), skids_unblock hr.skids⟩
  | Blocked => exact hsame
  | StartSquash => exact hsame
  | Squashing => exact hsame

theorem Passes.mem_content (h : Passes c tid sent th th') {inst : FetchedInst n} (hi : inst ∈ sent)
    :
    inst ∈ th.content := by
  obtain ⟨new, hlog, -, rfl⟩ := h.log
  obtain ⟨e, he, rfl⟩ := List.mem_map.mp hi
  rw [← h.content, DecodeLane.content, hlog, List.map_append, List.append_assoc,
    List.append_assoc]
  refine List.mem_append_right _ (List.mem_append_left _ ?_)
  exact List.mem_map_of_mem (List.mem_of_mem_filter he)

end DecodeLane

/-! ## The two stages -/

namespace FetchDecode

open DecodeLane

/-- What fetch's stall flag of a thread becomes when it reads the signals `sigs`. -/
def reads (stalled : Bool) (sigs : List (Fin n → BlockSignals)) (tid : Fin n) :
    Except DecodeFail Bool :=
  sigs.foldlM (fun b sig => readBlockSignals b (sig tid)) stalled

/-- The invariant: nothing is lost, and fetch is in step with decode. -/
structure InStep (p : DecodeParams n) (s : FetchDecode n) : Prop where
  delivered : ∀ tid, s.delivered.filter (·.tid = tid) = (s.lane tid).content
  sent : ∀ tid, s.sent.filter (·.tid = tid) = sentOf (s.lane tid).log
  skids : ∀ tid, (s.lane tid).Skids
  tells : ∀ tid, reads (s.stallsDecode tid) s.signals tid = .ok (s.lane tid).isBlocked
  delayed : s.signals ≠ []
  inactive : ∀ tid, tid ∉ p.activeThreads → ∀ sig ∈ s.signals, sig tid = {}

variable {sig : Fin n → BlockSignals} {sigs : List (Fin n → BlockSignals)} {tid : Fin n}
  {p : DecodeParams n} {s : FetchDecode n}

theorem reads_cons {stalled : Bool} {b : Bool} (h : reads stalled (sig :: sigs) tid = .ok b) :
    ∃ stalled', readBlockSignals stalled (sig tid) = .ok stalled' ∧
      reads stalled' sigs tid = .ok b :=
  bind_eq_ok.mp h

theorem reads_append {stalled : Bool} {sigs' : List (Fin n → BlockSignals)} :
    reads stalled (sigs ++ sigs') tid =
      reads stalled sigs tid >>= fun b => reads b sigs' tid :=
  List.foldlM_append

/-- Fetch reads the oldest signals of every thread, and its assertions hold. -/
theorem fetchTick_reads (h : InStep p s) (hsigs : s.signals = sig :: sigs) :
    Ends (fun s' => ∃ stalls, s' = { s with stallsDecode := stalls } ∧
        ∀ tid, readBlockSignals (s.stallsDecode tid) (sig tid) = .ok (stalls tid))
      (fun _ => False) (s.fetchTick p) := by
  unfold fetchTick
  refine Ends.bind (Ends.foldlM_each (fun stalls tid => stalls tid)
    (fun tid b => readBlockSignals (s.stallsDecode tid) (sig tid) = .ok b) p.activeThreads_nodup
    fun stalls tid _ hstalls => ?_) fun stalls hstalls => ⟨stalls, rfl, fun tid => ?_⟩
  · obtain ⟨b, hb, _⟩ := reads_cons (hsigs ▸ h.tells tid)
    rw [hsigs, List.headD_cons]
    unfold fetchThread
    rw [hstalls, hb]
    refine ⟨?_, fun j hj => Function.update_of_ne hj _ _⟩
    show _ = Except.ok (Function.update stalls tid b tid)
    rw [Function.update_self]
  · by_cases htid : tid ∈ p.activeThreads
    · exact hstalls.1 tid htid
    · have hquiet : sig tid = {} := h.inactive tid htid sig (hsigs ▸ List.mem_cons_self)
      rw [hquiet, hstalls.2 tid htid]
      rfl

/-- The thread as decode finds it in a cycle. -/
theorem content_sortInsts (lane : Fin n → DecodeLane n) (fromFetch : List (FetchedInst n))
    (tid : Fin n) : (sortInsts lane fromFetch tid).content =
      (lane tid).content ++ fromFetch.filter (·.tid = tid) := by
  show _ ++ _ ++ (_ ++ _) = _
  rw [← List.append_assoc]
  rfl

/-- What decode does for one active thread, seen from the start of the cycle. -/
theorem decodeThread_ends (p : DecodeParams n) (c : DecodeCycle n) {t : Tick n} {th : DecodeLane n}
    (hth : t.lane tid = th) (hsent : t.toRename.filter (·.tid = tid) = []) (hsig : th.toFetch = {})
    (hskids : th.Skids) (htid : ∀ inst ∈ th.content, inst.tid = tid) :
    Ends (fun t' => Ticked c tid th.isBlocked (t'.toRename.filter (·.tid = tid)) th (t'.lane tid) ∧
        ∀ j, j ≠ tid → t'.lane j = t.lane j ∧
          t'.toRename.filter (·.tid = j) = t.toRename.filter (·.tid = j))
      OfDecode (decodeThread p c t tid) := by
  unfold decodeThread
  rw [hth]
  refine (checkSignalsAndUpdate_ends p c tid hsig hskids).bind fun th₁ h₁ => ?_
  refine (decode_ends p _ _ h₁).bind fun ⟨th₂, sent⟩ h₂ => ?_
  have hmine : ∀ inst ∈ sent, inst.tid = tid := fun inst hi => htid inst (h₂.passes.mem_content hi)
  refine ⟨?_, fun j hj => ⟨Function.update_of_ne hj _ _, ?_⟩⟩
  · show Ticked c tid _ ((t.toRename ++ sent).filter _) th (Function.update t.lane tid th₂ tid)
    rw [Function.update_self, List.filter_append, hsent, List.nil_append,
      List.filter_eq_self.mpr fun inst hi => decide_eq_true (hmine inst hi)]
    exact h₂
  · show (t.toRename ++ sent).filter _ = _
    rw [List.filter_append, List.append_right_eq_self, List.filter_eq_nil_iff]
    exact fun inst hi hj' => hj ((of_decide_eq_true hj').symm.trans (hmine inst hi))

/-- What a cycle of decode has done for every thread. -/
structure DecodesAll (p : DecodeParams n) (c : DecodeCycle n) (start : Fin n → DecodeLane n)
    (t : Tick n) : Prop where
  active : ∀ tid ∈ p.activeThreads, Ticked c tid (start tid).isBlocked
    (t.toRename.filter (·.tid = tid)) (start tid) (t.lane tid)
  inactive : ∀ tid, tid ∉ p.activeThreads →
    t.lane tid = start tid ∧ t.toRename.filter (·.tid = tid) = []

theorem decodeAll_ends (p : DecodeParams n) (c : DecodeCycle n) {start : Fin n → DecodeLane n}
    (hsig : ∀ tid, (start tid).toFetch = {}) (hskids : ∀ tid, (start tid).Skids)
    (htid : ∀ tid, ∀ inst ∈ (start tid).content, inst.tid = tid) :
    Ends (DecodesAll p c start) OfDecode
      (p.activeThreads.foldlM (decodeThread p c) ⟨start, []⟩) := by
  refine (Ends.foldlM_each
    (fun (t : Tick n) tid => (t.lane tid, t.toRename.filter (·.tid = tid)))
    (fun tid x => Ticked c tid (start tid).isBlocked x.2 (start tid) x.1)
    p.activeThreads_nodup fun t tid _ ht => ?_).mono fun t ht => ⟨ht.1, fun tid h => ?_⟩
  · obtain ⟨hlane, hsent⟩ := Prod.ext_iff.mp ht
    refine (decodeThread_ends p c hlane hsent (hsig tid) (hskids tid) (htid tid)).mono
      fun t' h' => ⟨h'.1, fun j hj => Prod.ext_iff.mpr (h'.2 j hj)⟩
  · exact Prod.ext_iff.mp (ht.2 tid h)

/-- Every thread ends a cycle in the same way, whether it is active or not. -/
theorem DecodesAll.ticked {c : DecodeCycle n} {start : Fin n → DecodeLane n} {t : Tick n}
    (h : DecodesAll p c start t) (hsig : ∀ tid, (start tid).toFetch = {})
    (hskids : ∀ tid, (start tid).Skids) (tid : Fin n) :
    Ticked c tid (start tid).isBlocked (t.toRename.filter (·.tid = tid)) (start tid)
      (t.lane tid) := by
  by_cases htid : tid ∈ p.activeThreads
  · exact h.active tid htid
  · obtain ⟨hlane, hsent⟩ := h.inactive tid htid
    rw [hlane, hsent]
    exact ⟨.of_log rfl rfl, tells_quiet (hsig tid) rfl, hskids tid⟩

/-- **Decode's half of a cycle.** -/
theorem decodeTick_ends {s₁ : FetchDecode n} (h : InStep p s) (hsigs : s.signals = sig :: sigs)
    (hs₁ : ∃ stalls, s₁ = { s with stallsDecode := stalls })
    (hreads : ∀ tid, reads (s₁.stallsDecode tid) sigs tid = .ok (s.lane tid).isBlocked)
    (c : DecodeCycle n) :
    Ends (fun s' => InStep p s' ∧ ∀ tid, ∃ new, (s'.lane tid).log = (s.lane tid).log ++ new ∧
        Justified c tid new) OfDecode (s₁.decodeTick p c) := by
  obtain ⟨stalls, rfl⟩ := hs₁
  have hsig (tid : Fin n) : (sortInsts s.lane c.fromFetch tid).toFetch = {} := rfl
  have hskids (tid : Fin n) : (sortInsts s.lane c.fromFetch tid).Skids := h.skids tid
  have hcontent (tid : Fin n) : (sortInsts s.lane c.fromFetch tid).content =
      (s.delivered ++ c.fromFetch).filter (·.tid = tid) := by
    rw [content_sortInsts, ← h.delivered, List.filter_append]
  have htid (tid : Fin n) : ∀ inst ∈ (sortInsts s.lane c.fromFetch tid).content,
      inst.tid = tid := by
    intro inst hi
    rw [hcontent] at hi
    exact of_decide_eq_true (List.mem_filter.mp hi).2
  unfold decodeTick
  refine (decodeAll_ends p c hsig hskids htid).bind fun t ht => ?_
  have hticked := ht.ticked hsig hskids
  have hnew : (s.signals ++ [fun tid => (t.lane tid).toFetch]).tail =
      sigs ++ [fun tid => (t.lane tid).toFetch] := by
    rw [hsigs]
    rfl
  refine ⟨⟨fun tid => ?_, fun tid => ?_, fun tid => (hticked tid).skids, fun tid => ?_, ?_,
    fun tid hin => ?_⟩, fun tid => ?_⟩
  · exact ((hticked tid).passes.content.trans (hcontent tid)).symm
  · obtain ⟨new, hlog, -, hsent⟩ := (hticked tid).passes.log
    show (s.sent ++ t.toRename).filter _ = sentOf (t.lane tid).log
    rw [List.filter_append, h.sent, ← hsent, hlog, sentOf_append]
    rfl
  · show reads (stalls tid) (s.signals ++ [_]).tail tid = _
    rw [hnew, reads_append, hreads tid]
    show readBlockSignals _ _ >>= pure = _
    rw [bind_pure]
    exact (hticked tid).tells
  · show (s.signals ++ [_]).tail ≠ []
    rw [hnew]
    exact List.append_ne_nil_of_right_ne_nil _ nofun
  · intro sig' hsig'
    have hmem : sig' ∈ (s.signals ++ [fun tid => (t.lane tid).toFetch]).tail := hsig'
    rw [hnew, List.mem_append, List.mem_singleton] at hmem
    rcases hmem with hmem | rfl
    · exact h.inactive tid hin sig' (hsigs ▸ List.mem_cons_of_mem _ hmem)
    · show (t.lane tid).toFetch = {}
      rw [(ht.inactive tid hin).1]
      rfl
  · obtain ⟨new, hlog, hjust, -⟩ := (hticked tid).passes.log
    exact ⟨new, hlog, hjust⟩

theorem inStep_initial (p : DecodeParams n) : InStep p (initial p) := by
  refine ⟨fun _ => rfl, fun _ => rfl, fun _ _ => rfl, fun tid => ?_, ?_, fun tid _ sig hsig => ?_⟩
  · show reads false (List.replicate p.decodeToFetchDelay fun _ => {}) tid = .ok false
    induction p.decodeToFetchDelay with
    | zero => rfl
    | succ k ih => exact ih
  · intro hnil
    have hzero : p.decodeToFetchDelay = 0 := (List.replicate_eq_nil_iff _).mp hnil
    exact absurd hzero p.decodeToFetchDelay_pos.ne'
  · rw [List.eq_of_mem_replicate hsig]

/-! ## Runs -/

end FetchDecode

end Gem5.Pipeline
