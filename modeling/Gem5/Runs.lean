/-
# Runs of a step function that may fail

Reusable infrastructure, with no reference to the simulator.  A component is a
state type `σ`, an action type `α` and a step function `σ → α → Except ε σ`
whose error is the assertion or panic that stops the program.  A run is the
left fold of the step over a list of actions; `Admitted` says that every action
of a run meets a caller-side condition in the state it is taken in.

The two rules every component uses are `run_invariant` (what one step preserves,
a whole run preserves) and `run_error` (a failed run fails at one step, taken
in a state where the invariant still holds); `bind_eq_ok` takes a step that is
itself a sequence of fallible parts apart.
-/
import Mathlib

namespace Runs

variable {σ α ε : Type*}

/-- Run a list of actions from a state; the first failing step ends the run. -/
def run (step : σ → α → Except ε σ) : σ → List α → Except ε σ
  | s, [] => .ok s
  | s, a :: as =>
      match step s a with
      | .ok s' => run step s' as
      | .error e => .error e

/-- Every action of the run meets the condition `adm` in the state it is taken in. -/
def Admitted (adm : σ → α → Prop) (step : σ → α → Except ε σ) : σ → List α → Prop
  | _, [] => True
  | s, a :: as => adm s a ∧ ∀ s', step s a = .ok s' → Admitted adm step s' as

/-- A state reached from `s` by an admitted run. -/
def Reached (adm : σ → α → Prop) (step : σ → α → Except ε σ) (s s' : σ) : Prop :=
  ∃ as, Admitted adm step s as ∧ run step s as = .ok s'

/-- A sequenced computation succeeds exactly when both parts do. -/
theorem bind_eq_ok.{v} {α β : Type v} {x : Except ε α} {f : α → Except ε β} {b : β} :
    x >>= f = .ok b ↔ ∃ a, x = .ok a ∧ f a = .ok b := by
  constructor
  · intro h
    cases x with
    | error e => cases h
    | ok a => exact ⟨a, rfl, h⟩
  · rintro ⟨a, rfl, h⟩
    exact h

/-- A sequenced computation returns when its first part does and its second part
returns on that value. -/
theorem bind_returns.{v} {α β : Type v} {x : Except ε α} {f : α → Except ε β} {a : α}
    (hx : x = .ok a) (hf : ∃ b, f a = .ok b) : ∃ b, x >>= f = .ok b := by
  obtain ⟨b, hb⟩ := hf
  exact ⟨b, bind_eq_ok.mpr ⟨a, hx, hb⟩⟩

/-- A sequenced computation fails in its first part or in its second. -/
theorem bind_eq_error.{v} {α β : Type v} {x : Except ε α} {f : α → Except ε β} {e : ε} :
    x >>= f = .error e ↔ x = .error e ∨ ∃ a, x = .ok a ∧ f a = .error e := by
  constructor
  · intro h
    cases x with
    | error e' =>
      cases h
      exact .inl rfl
    | ok a => exact .inr ⟨a, rfl, h⟩
  · rintro (rfl | ⟨a, rfl, h⟩)
    · rfl
    · exact h

/-! ## Assertions -/

/-- An assertion: continue when the condition holds, else fail with `e`. -/
def require (e : ε) (b : Bool) : Except ε Unit := if b then .ok () else .error e

variable {e : ε} {x : Except ε α} {Q : α → Prop} {E : ε → Prop}

theorem require_eq_ok {b : Bool} {x : Unit} : require e b = .ok x ↔ b = true := by
  cases b <;> simp [require]

theorem require_ok {b : Bool} (h : b = true) : require e b = .ok () :=
  require_eq_ok.mpr h

theorem require_eq_error {e' : ε} {b : Bool} :
    require e b = .error e' ↔ b = false ∧ e = e' := by
  cases b <;> simp [require]

/-- A dereference: continue with the value, or fail with `e` when there is none. -/
def orFail (e : ε) : Option α → Except ε α
  | some a => .ok a
  | none => .error e

theorem orFail_eq_ok {o : Option α} {a : α} : orFail e o = .ok a ↔ o = some a := by
  cases o <;> simp [orFail]

/-! ## Specifications -/

/-- A computation ends with a value that satisfies `P`, or fails with an error that
satisfies `E`. -/
def Ends (P : α → Prop) (E : ε → Prop) : Except ε α → Prop
  | .ok a => P a
  | .error e => E e

instance {P : α → Prop} {E : ε → Prop} [DecidablePred P] [DecidablePred E] :
    ∀ x, Decidable (Ends P E x)
  | .ok a => inferInstanceAs (Decidable (P a))
  | .error e => inferInstanceAs (Decidable (E e))

theorem Ends.bind.{v} {α β : Type v} {P : α → Prop} {Q : β → Prop} {E : ε → Prop}
    {x : Except ε α} {f : α → Except ε β} (hx : Ends P E x) (hf : ∀ a, P a → Ends Q E (f a)) :
    Ends Q E (x >>= f) := by
  cases x with
  | ok a => exact hf a hx
  | error e => exact hx

theorem Ends.mono {P : α → Prop} (hx : Ends P E x) (h : ∀ a, P a → Q a) : Ends Q E x := by
  cases x with
  | ok a => exact h a hx
  | error e => exact hx

/-- Two specifications of one computation hold together. -/
theorem Ends.and {P : α → Prop} {E' : ε → Prop} (hx : Ends P E x) (hx' : Ends Q E' x) :
    Ends (fun a => P a ∧ Q a) (fun e => E e ∧ E' e) x := by
  cases x with
  | ok a => exact ⟨hx, hx'⟩
  | error e => exact ⟨hx, hx'⟩

theorem Ends.mono_error {P : α → Prop} {E' : ε → Prop} (hx : Ends P E x) (h : ∀ e, E e → E' e) :
    Ends P E' x := by
  cases x with
  | ok a => exact hx
  | error e => exact h e hx

/-- An assertion whose error is among those expected. -/
theorem ends_require {b : Bool} (he : E e) :
    Ends (fun _ => b = true) E (require e b) := by
  cases b with
  | true => exact rfl
  | false => exact he

/-- What every step of a fallible fold keeps, the fold keeps. -/
theorem Ends.foldlM {σ ι : Type} {P : σ → Prop} {f : σ → ι → Except ε σ} {l : List ι}
    (hf : ∀ s, ∀ i ∈ l, P s → Ends P E (f s i)) {s : σ} (hs : P s) :
    Ends P E (l.foldlM f s) := by
  induction l generalizing s with
  | nil => exact hs
  | cons i l ih =>
    rw [List.foldlM_cons]
    refine (hf s i List.mem_cons_self hs).bind fun t ht => ?_
    exact ih (fun u j hj => hf u j (List.mem_cons_of_mem i hj)) ht

/-- A fallible fold over different indices, each of whose steps changes one component: every
component of the list gets the property of its own step, and the others stay. -/
theorem Ends.foldlM_each {σ ι : Type} {β : Type*} (get : σ → ι → β) (P : ι → β → Prop)
    {f : σ → ι → Except ε σ} {l : List ι} (hl : l.Nodup) {s : σ}
    (hf : ∀ t, ∀ i ∈ l, get t i = get s i →
      Ends (fun t' => P i (get t' i) ∧ ∀ j, j ≠ i → get t' j = get t j) E (f t i)) :
    Ends (fun t => (∀ i ∈ l, P i (get t i)) ∧ ∀ i, i ∉ l → get t i = get s i) E
      (l.foldlM f s) := by
  suffices hgen : ∀ u, (∀ i ∈ l, get u i = get s i) →
      Ends (fun t => (∀ i ∈ l, P i (get t i)) ∧ ∀ i, i ∉ l → get t i = get u i) E
        (l.foldlM f u) from hgen s fun _ _ => rfl
  induction l with
  | nil => exact fun u _ => ⟨fun _ h => absurd h List.not_mem_nil, fun _ _ => rfl⟩
  | cons i l ih =>
    intro u hu
    rw [List.nodup_cons] at hl
    rw [List.foldlM_cons]
    refine (hf u i List.mem_cons_self (hu i List.mem_cons_self)).bind fun v hv => ?_
    have hrest := ih hl.2 (fun t j hj => hf t j (List.mem_cons_of_mem i hj)) v fun j hj => by
      rw [hv.2 j fun h => hl.1 (h ▸ hj)]
      exact hu j (List.mem_cons_of_mem i hj)
    refine hrest.mono fun t ht => ⟨fun j hj => ?_, fun j hj => ?_⟩
    · rcases List.mem_cons.mp hj with rfl | hj
      · rw [ht.2 j hl.1]
        exact hv.1
      · exact ht.1 j hj
    · rw [List.mem_cons, not_or] at hj
      rw [ht.2 j hj.2, hv.2 j hj.1]

/-- What round `i` of a fallible loop over the numbers below `n` turns from `P i` to `P (i + 1)`, the
loop turns from `P 0` to `P n`. -/
theorem foldlM_range {σ : Type} {P : ℕ → σ → Prop} {f : σ → ℕ → Except ε σ} {n : ℕ} {s : σ}
    (h0 : P 0 s) (hstep : ∀ i, i < n → ∀ t, P i t → ∃ u, f t i = .ok u ∧ P (i + 1) u) :
    ∃ t, (List.range n).foldlM f s = .ok t ∧ P n t := by
  induction n with
  | zero => exact ⟨s, rfl, h0⟩
  | succ n ih =>
    obtain ⟨t, ht, hP⟩ := ih fun i hi => hstep i (Nat.lt_succ_of_lt hi)
    obtain ⟨u, hu, hQ⟩ := hstep n (Nat.lt_succ_self n) t hP
    refine ⟨u, ?_, hQ⟩
    rw [List.range_succ, List.foldlM_append]
    exact bind_eq_ok.mpr ⟨t, ht, bind_eq_ok.mpr ⟨u, hu, rfl⟩⟩

/-- Whether a computation returns a value with a property can be computed by running it. -/
instance decidableReturns {x : Except ε α} {P : α → Prop} [DecidablePred P] :
    Decidable (∃ a, x = .ok a ∧ P a) :=
  match x with
  | .ok a => decidable_of_iff (P a)
      ⟨fun h => ⟨a, rfl, h⟩, fun ⟨_, hb, h⟩ => Except.ok.inj hb ▸ h⟩
  | .error _ => .isFalse nofun

/-! ## Runs -/

section

variable {step : σ → α → Except ε σ} {s : σ} {as : List α} {adm : σ → α → Prop}

@[simp] theorem run_nil (step : σ → α → Except ε σ) (s : σ) : run step s [] = .ok s := rfl

theorem run_cons_ok {s' : σ} {a : α} (as : List α) (h : step s a = .ok s') :
    run step s (a :: as) = run step s' as := by
  simp only [run, h]

theorem run_cons_error {a : α} (as : List α) (h : step s a = .error e) :
    run step s (a :: as) = .error e := by
  simp only [run, h]

/-- Running a concatenation is running the parts one after the other. -/
theorem run_append_ok {s' : σ} (bs : List α) (h : run step s as = .ok s') :
    run step s (as ++ bs) = run step s' bs := by
  induction as generalizing s with
  | nil =>
    rw [run_nil, Except.ok.injEq] at h
    rw [List.nil_append, h]
  | cons a as ih =>
    cases hs : step s a with
    | error e => rw [run_cons_error as hs] at h; cases h
    | ok t =>
      rw [run_cons_ok as hs] at h
      rw [List.cons_append, run_cons_ok _ hs]
      exact ih h

/-- **The invariant rule.**  What every admitted step preserves, an admitted run
preserves. -/
theorem run_invariant {P : σ → Prop} (hstep : ∀ s a s', P s → adm s a → step s a = .ok s' → P s')
    {s' : σ} (hs : P s) (ha : Admitted adm step s as) (h : run step s as = .ok s') : P s' := by
  induction as generalizing s with
  | nil =>
    rw [run_nil, Except.ok.injEq] at h
    exact h ▸ hs
  | cons a as ih =>
    cases ht : step s a with
    | error e => rw [run_cons_error as ht] at h; cases h
    | ok t =>
      rw [run_cons_ok as ht] at h
      exact ih (hstep s a t hs ha.1 ht) (ha.2 t ht) h

/-- **The failure rule.**  A failed admitted run fails at one step, and the
invariant still holds in the state that step was taken in. -/
theorem run_error {P : σ → Prop} (hstep : ∀ s a s', P s → adm s a → step s a = .ok s' → P s')
    (hs : P s) (ha : Admitted adm step s as) (h : run step s as = .error e) :
    ∃ t a, P t ∧ adm t a ∧ step t a = .error e := by
  induction as generalizing s with
  | nil => rw [run_nil] at h; cases h
  | cons a as ih =>
    cases ht : step s a with
    | error e' =>
      rw [run_cons_error as ht, Except.error.injEq] at h
      exact ⟨s, a, hs, ha.1, h ▸ ht⟩
    | ok t =>
      rw [run_cons_ok as ht] at h
      exact ih (hstep s a t hs ha.1 ht) (ha.2 t ht) h

/-- **The specification rule.**  If every admitted step from the invariant ends with the
invariant or an error of `E`, so does an admitted run. -/
theorem run_ends {P : σ → Prop} (hstep : ∀ s a, P s → adm s a → Ends P E (step s a)) (hs : P s)
    (ha : Admitted adm step s as) : Ends P E (run step s as) := by
  induction as generalizing s with
  | nil => exact hs
  | cons a as ih =>
    have hfirst := hstep s a hs ha.1
    cases ht : step s a with
    | error e =>
      rw [ht] at hfirst
      rw [run_cons_error as ht]
      exact hfirst
    | ok t =>
      rw [ht] at hfirst
      rw [run_cons_ok as ht]
      exact ih hfirst (ha.2 t ht)

/-- **The progress rule.**  If every admitted step from the invariant succeeds and keeps it, an
admitted run succeeds, with the invariant at its end. -/
theorem run_total {P : σ → Prop} (hstep : ∀ s a, P s → adm s a → ∃ s', step s a = .ok s' ∧ P s')
    (hs : P s) (ha : Admitted adm step s as) :
    ∃ s', run step s as = .ok s' ∧ P s' := by
  have hends : Ends P (fun _ => False) (run step s as) :=
    run_ends (fun t a ht hadm => by
      obtain ⟨t', ht', hP⟩ := hstep t a ht hadm
      rw [ht']
      exact hP) hs ha
  cases hr : run step s as with
  | ok s' =>
    rw [hr] at hends
    exact ⟨s', rfl, hends⟩
  | error e =>
    rw [hr] at hends
    exact hends.elim

/-- **The simulation rule.**  A relation to an abstract machine that every step keeps
relates a whole run to the abstract one. -/
theorem run_simulation {τ : Type*} {R : σ → τ → Prop} {astep : τ → α → τ}
    (hstep : ∀ s t a s', R s t → step s a = .ok s' → R s' (astep t a)) {s' : σ} {t : τ} (hR : R s t)
    (h : run step s as = .ok s') :
    R s' (as.foldl astep t) := by
  induction as generalizing s t with
  | nil =>
    rw [run_nil, Except.ok.injEq] at h
    exact h ▸ hR
  | cons a as ih =>
    cases hs : step s a with
    | error e => rw [run_cons_error as hs] at h; cases h
    | ok u =>
      rw [run_cons_ok as hs] at h
      exact ih (hstep s t a u hR hs) h

/-- **The lockstep rule.**  Two machines that both take every action admitted in the first, and
stay related, both take a whole admitted run and stay related. -/
theorem run_lockstep {τ ε' : Type*} {R : σ → τ → Prop} {step' : τ → α → Except ε' τ}
    (hstep : ∀ s t a, R s t → adm s a → ∃ s' t', step s a = .ok s' ∧ step' t a = .ok t' ∧ R s' t')
    {t : τ} (hR : R s t) (ha : Admitted adm step s as) :
    ∃ s' t', run step s as = .ok s' ∧ run step' t as = .ok t' ∧ R s' t' := by
  induction as generalizing s t with
  | nil => exact ⟨s, t, rfl, rfl, hR⟩
  | cons a as ih =>
    obtain ⟨s', t', hs, ht, hR'⟩ := hstep s t a hR ha.1
    rw [run_cons_ok as hs, run_cons_ok as ht]
    exact ih hR' (ha.2 s' hs)

/-- **The projection rule.**  A map of the states that commutes with every step taken under
the invariant commutes with whole runs, failures included. -/
theorem run_map {τ : Type*} {P : σ → Prop} {step' : τ → α → Except ε τ} {f : σ → τ}
    (hkeep : ∀ s a s', P s → adm s a → step s a = .ok s' → P s')
    (hstep : ∀ s a, P s → adm s a → (step s a).map f = step' (f s) a) (hs : P s)
    (ha : Admitted adm step s as) :
    (run step s as).map f = run step' (f s) as := by
  induction as generalizing s with
  | nil => rfl
  | cons a as ih =>
    have hfirst := hstep s a hs ha.1
    cases ht : step s a with
    | error e =>
      rw [ht] at hfirst
      rw [run_cons_error as ht, run_cons_error as hfirst.symm]
      rfl
    | ok t =>
      rw [ht] at hfirst
      rw [run_cons_ok as ht, run_cons_ok as hfirst.symm]
      exact ih (hkeep s a t hs ha.1 ht) (ha.2 t ht)

/-- The invariant rule for the states reached. -/
theorem Reached.invariant {P : σ → Prop}
    (hstep : ∀ s a s', P s → adm s a → step s a = .ok s' → P s') {s' : σ} (hs : P s)
    (h : Reached adm step s s') : P s' := by
  obtain ⟨as, ha, hr⟩ := h
  exact run_invariant hstep hs ha hr

theorem Reached.refl (adm : σ → α → Prop) (step : σ → α → Except ε σ) (s : σ) :
    Reached adm step s s :=
  ⟨[], trivial, rfl⟩

/-- An admitted run followed by one more admitted action is admitted. -/
theorem Admitted.append {bs : List α} (ha : Admitted adm step s as)
    (hb : ∀ s', run step s as = .ok s' → Admitted adm step s' bs) :
    Admitted adm step s (as ++ bs) := by
  induction as generalizing s with
  | nil => exact hb s rfl
  | cons a as ih =>
    refine ⟨ha.1, fun t ht => ih (ha.2 t ht) fun s' hs' => hb s' ?_⟩
    rw [run_cons_ok as ht]
    exact hs'

/-- A run whose actions meet the condition in every state is admitted. -/
theorem admitted_of_forall (h : ∀ a ∈ as, ∀ t, adm t a) : Admitted adm step s as := by
  induction as generalizing s with
  | nil => trivial
  | cons a as ih =>
    exact ⟨h a List.mem_cons_self s, fun t _ => ih fun b hb => h b (List.mem_cons_of_mem a hb)⟩

/-- A condition on the actions alone can be added to the admission. -/
theorem Admitted.and_forall (ha : Admitted adm step s as) (hQ : ∀ a ∈ as, Q a) :
    Admitted (fun t a => adm t a ∧ Q a) step s as := by
  induction as generalizing s with
  | nil => trivial
  | cons a as ih =>
    exact ⟨⟨ha.1, hQ a List.mem_cons_self⟩,
      fun t ht => ih (ha.2 t ht) fun b hb => hQ b (List.mem_cons_of_mem a hb)⟩

/-- Two conditions are admitted together when each of them is. -/
theorem Admitted.and {adm' : σ → α → Prop} (ha : Admitted adm step s as)
    (ha' : Admitted adm' step s as) :
    Admitted (fun t a => adm t a ∧ adm' t a) step s as := by
  induction as generalizing s with
  | nil => trivial
  | cons a as ih => exact ⟨⟨ha.1, ha'.1⟩, fun t ht => ih (ha.2 t ht) (ha'.2 t ht)⟩

/-- Whether a run is admitted can be computed by running it. -/
instance Admitted.decidable {adm : σ → α → Prop} [∀ s a, Decidable (adm s a)]
    {step : σ → α → Except ε σ} : ∀ s as, Decidable (Admitted adm step s as)
  | _, [] => .isTrue trivial
  | s, a :: as =>
      match h : step s a with
      | .ok s' =>
          have : Decidable (Admitted adm step s' as) := Admitted.decidable s' as
          decidable_of_iff (adm s a ∧ Admitted adm step s' as)
            (and_congr_right fun _ =>
              ⟨fun h' _ ht => Except.ok.inj (h.symm.trans ht) ▸ h', fun h' => h' s' h⟩)
      | .error _ =>
          decidable_of_iff (adm s a)
            ⟨fun h' => ⟨h', fun _ ht => nomatch h.symm.trans ht⟩, fun h' => h'.1⟩

end

/-- Reached states are closed under admitted steps. -/
theorem Reached.step {adm : σ → α → Prop} {step : σ → α → Except ε σ} {s t u : σ} {a : α}
    (h : Reached adm step s t) (hadm : adm t a) (hstep : step t a = .ok u) :
    Reached adm step s u := by
  obtain ⟨as, ha, hr⟩ := h
  refine ⟨as ++ [a], ha.append fun s' hs' => ?_, ?_⟩
  · rw [hr, Except.ok.injEq] at hs'
    subst hs'
    exact ⟨hadm, fun _ _ => trivial⟩
  · rw [run_append_ok [a] hr, run_cons_ok [] hstep]
    rfl

end Runs
