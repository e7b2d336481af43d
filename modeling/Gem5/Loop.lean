/-
# Loops

Reusable infrastructure, with no reference to the simulator.  The body of a loop gives the next
state, or the result with which the loop ends.  A loop that runs out of rounds has no result; one
that yields a result yields it for every larger number of rounds.
-/
import Mathlib.Data.Nat.Init

namespace Loop

variable {σ β : Type*}

/-- At most `fuel` rounds of a loop. -/
def loop (body : σ → σ ⊕ β) : ℕ → σ → Option β
  | 0, _ => none
  | fuel + 1, s =>
    match body s with
    | .inl s' => loop body fuel s'
    | .inr b => some b

/-- **The loop ends with a result.** -/
def Yields (body : σ → σ ⊕ β) (s : σ) (b : β) : Prop := ∃ fuel, loop body fuel s = some b

variable {s : σ} {body : σ → σ ⊕ β}

theorem loop_inl {s' : σ} (h : body s = .inl s') (fuel : ℕ) :
    loop body (fuel + 1) s = loop body fuel s' := by
  simp only [loop, h]

theorem loop_inr {b : β} (h : body s = .inr b) (fuel : ℕ) :
    loop body (fuel + 1) s = some b := by
  simp only [loop, h]

theorem Yields.last {b : β} (h : body s = .inr b) :
    Yields body s b := ⟨1, loop_inr h 0⟩

theorem Yields.next {s' : σ} {b : β} (h : body s = .inl s') (hs : Yields body s' b) :
    Yields body s b := by
  obtain ⟨fuel, hfuel⟩ := hs
  exact ⟨fuel + 1, (loop_inl h fuel).trans hfuel⟩

/-- More rounds do not change the result. -/
theorem loop_mono {fuel : ℕ} :
    ∀ {s : σ} {b : β} {more : ℕ}, fuel ≤ more → loop body fuel s = some b →
      loop body more s = some b := by
  induction fuel with
  | zero =>
    intro s b more _ h
    cases h
  | succ fuel ih =>
    intro s b more hle h
    obtain ⟨more, rfl⟩ : ∃ m, more = m + 1 := ⟨more - 1, by omega⟩
    cases hbody : body s with
    | inl s' =>
      rw [loop_inl hbody] at h ⊢
      exact ih (by omega) h
    | inr c =>
      rw [loop_inr hbody] at h ⊢
      exact h

/-- A loop has one result. -/
theorem Yields.unique {b c : β} (hb : Yields body s b) (hc : Yields body s c) : b = c := by
  obtain ⟨m, hm⟩ := hb
  obtain ⟨n, hn⟩ := hc
  have hm' := loop_mono (Nat.le_max_left m n) hm
  have hn' := loop_mono (Nat.le_max_right m n) hn
  exact Option.some.inj (hm'.symm.trans hn')

/-- **The invariant rule.**  What every round keeps holds when the last one begins. -/
theorem Yields.invariant {P : σ → Prop} {Q : β → Prop}
    (hnext : ∀ s s', P s → body s = .inl s' → P s') (hlast : ∀ s b, P s → body s = .inr b → Q b)
    {b : β} (h : Yields body s b) (hs : P s) : Q b := by
  obtain ⟨fuel, hfuel⟩ := h
  induction fuel generalizing s with
  | zero => cases hfuel
  | succ fuel ih =>
    cases hbody : body s with
    | inl s' =>
      rw [loop_inl hbody] at hfuel
      exact ih (hnext s s' hs hbody) hfuel
    | inr c =>
      rw [loop_inr hbody] at hfuel
      obtain rfl := Option.some.inj hfuel
      exact hlast s c hs hbody

/-- **The termination rule.**  A loop ends if every round that does not end it makes a measure
smaller. -/
theorem yields_of_measure {P : σ → Prop} (m : σ → ℕ)
    (hnext : ∀ s s', P s → body s = .inl s' → P s' ∧ m s' < m s) (hs : P s) :
    ∃ b, Yields body s b := by
  induction hm : m s using Nat.strong_induction_on generalizing s with
  | _ n ih =>
    cases hbody : body s with
    | inl s' =>
      obtain ⟨hs', hlt⟩ := hnext s s' hs hbody
      obtain ⟨b, hb⟩ := ih (m s') (by omega) hs' rfl
      exact ⟨b, hb.next hbody⟩
    | inr b => exact ⟨b, .last hbody⟩

end Loop
