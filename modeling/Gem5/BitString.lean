/-
# Bit strings as numbers

Reusable infrastructure, with no reference to the simulator.  A bit string is read with its most
significant bit first.  The number forgets the length: two strings have the same number exactly when
they are equal up to leading zeros.
-/
import Mathlib

namespace BitString

/-- The number of a bit string. -/
def value (p : List Bool) : ℕ := p.foldl (fun n b => 2 * n + b.toNat) 0

/-- A bit string without its leading zeros. -/
def strip (p : List Bool) : List Bool := p.dropWhile (!·)

/-- The `length` lowest bits of a number, the highest first. -/
def ofValue (length n : ℕ) : List Bool :=
  (List.range length).map fun i => n.testBit (length - 1 - i)

@[simp] theorem value_nil : value [] = 0 := rfl

theorem value_append_singleton (p : List Bool) (b : Bool) :
    value (p ++ [b]) = 2 * value p + b.toNat := by
  unfold value
  rw [List.foldl_append]
  rfl

theorem foldl_value (p : List Bool) :
    ∀ n, p.foldl (fun n b => 2 * n + b.toNat) n = 2 ^ p.length * n + value p := by
  induction p with
  | nil =>
    intro n
    simp
  | cons b p ih =>
    intro n
    rw [List.foldl_cons, ih, List.length_cons, Nat.pow_succ]
    have hcons : value (b :: p) = 2 ^ p.length * b.toNat + value p := by
      rw [← ih]
      unfold value
      rw [List.foldl_cons, Nat.mul_zero, Nat.zero_add]
    rw [hcons]
    ring

theorem value_cons (b : Bool) (p : List Bool) :
    value (b :: p) = 2 ^ p.length * b.toNat + value p := by
  rw [← foldl_value]
  unfold value
  rw [List.foldl_cons, Nat.mul_zero, Nat.zero_add]

theorem value_lt (p : List Bool) : value p < 2 ^ p.length := by
  induction p with
  | nil => decide
  | cons b p ih =>
    have hb := Bool.toNat_le b
    have hmul : 2 ^ p.length * b.toNat ≤ 2 ^ p.length * 1 := Nat.mul_le_mul_left _ hb
    rw [value_cons, List.length_cons, Nat.pow_succ]
    omega

/-- Strings of one length are determined by their numbers. -/
theorem eq_of_value {p : List Bool} :
    ∀ {q : List Bool}, p.length = q.length → value p = value q → p = q := by
  induction p with
  | nil =>
    intro q hlen _
    exact (List.length_eq_zero_iff.mp hlen.symm).symm
  | cons b p ih =>
    intro q hlen hvalue
    cases q with
    | nil => cases hlen
    | cons c q =>
      have hlen' : p.length = q.length := Nat.succ.inj hlen
      rw [value_cons, value_cons, hlen'] at hvalue
      have hp := value_lt p
      have hq := value_lt q
      rw [hlen'] at hp
      have hbc : b = c := by
        cases b <;> cases c <;> simp at hvalue ⊢ <;> omega
      subst hbc
      rw [ih hlen' (Nat.add_left_cancel hvalue)]

theorem value_strip (p : List Bool) : value (strip p) = value p := by
  induction p with
  | nil => rfl
  | cons b p ih =>
    cases b with
    | false =>
      rw [value_cons, Bool.toNat_false, Nat.mul_zero, Nat.zero_add, ← ih]
      rfl
    | true => rfl

theorem exists_replicate_append_strip (p : List Bool) :
    ∃ j, p = List.replicate j false ++ strip p := by
  induction p with
  | nil => exact ⟨0, rfl⟩
  | cons b p ih =>
    obtain ⟨j, hj⟩ := ih
    cases b with
    | false =>
      refine ⟨j + 1, ?_⟩
      rw [List.replicate_succ, List.cons_append]
      exact congrArg _ hj
    | true => exact ⟨0, rfl⟩

theorem strip_eq_cons (p : List Bool) : strip p = [] ∨ ∃ s, strip p = true :: s := by
  induction p with
  | nil => exact .inl rfl
  | cons b p ih =>
    cases b with
    | false => exact ih
    | true => exact .inr ⟨p, rfl⟩

theorem strip_replicate_append (j : ℕ) (s : List Bool) :
    strip (List.replicate j false ++ true :: s) = true :: s := by
  induction j with
  | zero => rfl
  | succ j ih =>
    rw [List.replicate_succ, List.cons_append]
    exact ih

/-- A string without leading zeros is empty, or its number is at least half of what fits. -/
theorem strip_eq (p : List Bool) : strip p = [] ∨ 2 ^ (strip p).length ≤ 2 * value (strip p) := by
  induction p with
  | nil => exact .inl rfl
  | cons b p ih =>
    cases b with
    | false => exact ih
    | true =>
      right
      change 2 ^ (p.length + 1) ≤ 2 * value (true :: p)
      rw [value_cons, Bool.toNat_true, Nat.pow_succ]
      omega

/-- **Leading zeros.**  Two strings have the same number exactly when they are equal up to leading
zeros. -/
theorem value_eq_iff (p q : List Bool) : value p = value q ↔ strip p = strip q := by
  constructor
  · intro h
    rw [← value_strip p, ← value_strip q] at h
    have hp := value_lt (strip p)
    have hq := value_lt (strip q)
    refine eq_of_value ?_ h
    rcases strip_eq p with hnil | hhigh
    · rcases strip_eq q with hnil' | hhigh'
      · rw [hnil, hnil']
      · rw [hnil, value_nil] at h
        have hpos := Nat.two_pow_pos (strip q).length
        omega
    · rcases strip_eq q with hnil' | hhigh'
      · rw [hnil', value_nil] at h
        have hpos := Nat.two_pow_pos (strip p).length
        omega
      · -- both lengths are the number of bits of the common value
        have h1 : 2 ^ (strip p).length < 2 ^ ((strip q).length + 1) := by
          rw [Nat.pow_succ]
          omega
        have h2 : 2 ^ (strip q).length < 2 ^ ((strip p).length + 1) := by
          rw [Nat.pow_succ]
          omega
        have h3 := (Nat.pow_lt_pow_iff_right (by decide)).mp h1
        have h4 := (Nat.pow_lt_pow_iff_right (by decide)).mp h2
        omega
  · intro h
    rw [← value_strip p, h, value_strip]

/-- The string can be read back from its number and its length. -/
theorem ofValue_value (p : List Bool) : ofValue p.length (value p) = p := by
  induction p using List.reverseRecOn with
  | nil => rfl
  | append_singleton p b ih =>
    rw [value_append_singleton, List.length_append, List.length_singleton]
    unfold ofValue at ih ⊢
    rw [List.range_succ, List.map_append]
    congr 1
    · refine (List.map_congr_left fun i hi => ?_).trans ih
      rw [List.mem_range] at hi
      rw [show p.length + 1 - 1 - i = p.length - 1 - i + 1 by omega, Nat.testBit_succ]
      congr 1
      have hb := Bool.toNat_lt b
      omega
    · cases b <;> simp

end BitString
