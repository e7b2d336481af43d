/-
# A feedback shift register

Reusable infrastructure, with no reference to the simulator.  A register of `n` cells holds a word
over `Bool`, seen as a function of the position.  One step shifts the word down by one cell and puts
the sum of the last and the first cell into the last one, so the first cells of the states form a
sequence with `a (k + n) = a (k + n - 1) + a k`.  Hence `n` steps plus `n - 1` steps are the
identity, which inverts the step plus the identity.
-/
import Mathlib

namespace ShiftRegister

/-- One step of the register. -/
def step (n : ℕ) (x : ℕ → Bool) : ℕ → Bool := fun i =>
  if i + 1 = n then x i ^^ x 0 else if i + 1 < n then x (i + 1) else false

/-- One step back: the first cell was shifted out, and is the difference of the last two. -/
def back (n : ℕ) (x : ℕ → Bool) : ℕ → Bool := fun i =>
  if i = 0 then x (n - 2) ^^ x (n - 1) else if i < n then x (i - 1) else false

/-- Nothing is beyond the last cell. -/
def Word (n : ℕ) (x : ℕ → Bool) : Prop := ∀ i, n ≤ i → x i = false

variable {n : ℕ} {x y : ℕ → Bool}

theorem word_step (n : ℕ) (x : ℕ → Bool) : Word n (step n x) := by
  intro i hi
  unfold step
  rw [if_neg (by omega), if_neg (by omega)]

theorem word_back (hn : 0 < n) (x : ℕ → Bool) : Word n (back n x) := by
  intro i hi
  unfold back
  rw [if_neg (by omega), if_neg (by omega)]

theorem word_iterate_step (hx : Word n x) (k : ℕ) : Word n ((step n)^[k] x) := by
  cases k with
  | zero => exact hx
  | succ k =>
    rw [Function.iterate_succ_apply']
    exact word_step n _

/-- The step is linear. -/
theorem step_xor (n : ℕ) (x y : ℕ → Bool) :
    step n (fun i => x i ^^ y i) = fun i => step n x i ^^ step n y i := by
  funext i
  unfold step
  by_cases hlast : i + 1 = n
  · rw [if_pos hlast, if_pos hlast, if_pos hlast, Bool.xor_assoc, Bool.xor_assoc,
      Bool.xor_left_comm (y i)]
  · rw [if_neg hlast, if_neg hlast, if_neg hlast]
    by_cases hlt : i + 1 < n
    · rw [if_pos hlt, if_pos hlt, if_pos hlt]
    · rw [if_neg hlt, if_neg hlt, if_neg hlt]
      rfl

theorem iterate_step_xor (n k : ℕ) (x y : ℕ → Bool) :
    (step n)^[k] (fun i => x i ^^ y i) = fun i => (step n)^[k] x i ^^ (step n)^[k] y i := by
  induction k generalizing x y with
  | zero => rfl
  | succ k ih => rw [Function.iterate_succ_apply, step_xor, ih]; rfl

/-- Within the register, `j` steps shift by `j` cells. -/
theorem iterate_step_apply (n : ℕ) :
    ∀ {i j : ℕ} {x : ℕ → Bool}, i + j < n → (step n)^[j] x i = x (i + j) := by
  intro i j
  induction j with
  | zero => exact fun _ => rfl
  | succ j ih =>
    intro x hij
    rw [Function.iterate_succ_apply, ih (by omega)]
    unfold step
    rw [if_neg (by omega), if_pos (by omega), Nat.add_assoc]

/-- **Cancellation.**  The sum of `n` and of `n - 1` steps is the identity. -/
theorem iterate_step_cancel (hn : 0 < n) (hx : Word n x) :
    (fun i => (step n)^[n] x i ^^ (step n)^[n - 1] x i) = x := by
  obtain ⟨m, rfl⟩ := Nat.exists_eq_succ_of_ne_zero hn.ne'
  funext i
  by_cases hi : i < m + 1
  · -- cell `i` is cell 0 after `i` more steps, and cell `m` is cell 0 after `m` more
    have hcell : ∀ k, (step (m + 1))^[k] x i = (step (m + 1))^[k] ((step (m + 1))^[i] x) 0 := by
      intro k
      rw [← Function.iterate_add_apply, Nat.add_comm k i, Function.iterate_add_apply,
        iterate_step_apply (m + 1) (by omega : 0 + i < m + 1), Nat.zero_add]
    have hfirst : (step (m + 1))^[i] x 0 = x i := by
      rw [iterate_step_apply (m + 1) (by omega : 0 + i < m + 1), Nat.zero_add]
    have hlast : ∀ z, (step (m + 1))^[m] z 0 = z m := by
      intro z
      rw [iterate_step_apply (m + 1) (by omega : 0 + m < m + 1), Nat.zero_add]
    have hfeed : step (m + 1) ((step (m + 1))^[i] x) m = ((step (m + 1))^[i] x m ^^ x i) := by
      rw [← hfirst]
      exact if_pos rfl
    rw [hcell, hcell, Nat.succ_sub_one, Function.iterate_succ_apply, hlast, hlast, hfeed,
      Bool.xor_right_comm, Bool.xor_self, Bool.false_xor]
  · rw [word_iterate_step hx _ i (by omega), word_iterate_step hx _ i (by omega), hx i (by omega)]
    rfl

/-- The step back undoes the step. -/
theorem back_step (hn : 2 ≤ n) (hx : Word n x) : back n (step n x) = x := by
  funext i
  unfold back
  by_cases hi0 : i = 0
  · have hlast : step n x (n - 1) = (x (n - 1) ^^ x 0) := if_pos (by omega)
    have hprev : step n x (n - 2) = x (n - 1) := by
      unfold step
      rw [if_neg (by omega), if_pos (by omega)]
      congr 1
      omega
    rw [if_pos hi0, hlast, hprev, ← Bool.xor_assoc, Bool.xor_self, Bool.false_xor, hi0]
  · rw [if_neg hi0]
    by_cases hi : i < n
    · unfold step
      rw [if_pos hi, if_neg (by omega), if_pos (by omega), Nat.sub_add_cancel (by omega)]
    · rw [if_neg hi, hx i (by omega)]

/-- The step undoes the step back. -/
theorem step_back (hn : 2 ≤ n) (hx : Word n x) : step n (back n x) = x := by
  funext i
  unfold step
  by_cases hlast : i + 1 = n
  · have hi : back n x i = x (i - 1) := by
      unfold back
      rw [if_neg (by omega), if_pos (by omega)]
    have hfirst : back n x 0 = (x (n - 2) ^^ x (n - 1)) := if_pos rfl
    rw [if_pos hlast, hi, hfirst, show i - 1 = n - 2 by omega, ← Bool.xor_assoc, Bool.xor_self,
      Bool.false_xor]
    congr 1
    omega
  · rw [if_neg hlast]
    by_cases hi : i + 1 < n
    · unfold back
      rw [if_pos hi, if_neg (Nat.succ_ne_zero i), if_pos hi, Nat.add_sub_cancel]
    · rw [if_neg hi, hx i (by omega)]

/-- `n - 1` steps invert the step plus the identity. -/
theorem iterate_step_add_self (hn : 0 < n) (hx : Word n x) :
    (step n)^[n - 1] (fun i => step n x i ^^ x i) = x := by
  rw [iterate_step_xor, ← Function.iterate_succ_apply, Nat.succ_eq_add_one, Nat.sub_add_cancel hn]
  exact iterate_step_cancel hn hx

/-- `n` steps invert the step back plus the identity. -/
theorem iterate_back_add_self (hn : 2 ≤ n) (hx : Word n x) :
    (step n)^[n] (fun i => back n x i ^^ x i) = x := by
  have hone : (step n)^[n] (back n x) = (step n)^[n - 1] x := by
    obtain ⟨m, rfl⟩ := Nat.exists_eq_succ_of_ne_zero (by omega : n ≠ 0)
    rw [Function.iterate_succ_apply, step_back hn hx, Nat.succ_sub_one]
  rw [iterate_step_xor, hone]
  funext i
  rw [Bool.xor_comm]
  exact congrFun (iterate_step_cancel (by omega) hx) i

end ShiftRegister
