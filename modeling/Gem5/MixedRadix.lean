/-
# Counting by mixed-radix digits

Reusable infrastructure, with no reference to the simulator.  A number below `c * n` is a lowest
digit below `c` and a rest below `n`.  A condition on the rest holds for `c` times as many numbers
as rests (`card_div`), and a condition on the rest together with a given lowest digit for as many
(`card_mod`).  Splitting off one digit after the other counts the numbers with given digits.
-/
import Mathlib.Tactic
import Mathlib.Data.Finset.Card
import Mathlib.Data.Finset.Prod

namespace MixedRadix

/-- The numbers below `n` with a property. -/
def below (n : ℕ) (P : ℕ → Prop) [DecidablePred P] : Finset ℕ := (Finset.range n).filter P

variable {P : ℕ → Prop} [DecidablePred P]

theorem mem_below {n b : ℕ} : b ∈ below n P ↔ b < n ∧ P b := by
  rw [below, Finset.mem_filter, Finset.mem_range]

/-- The lowest digit is free. -/
theorem card_div (c n : ℕ) :
    (below (c * n) fun b => P (b / c)).card = c * (below n P).card := by
  rcases Nat.eq_zero_or_pos c with rfl | hc
  · rw [Nat.zero_mul, Nat.zero_mul]
    rfl
  rw [← Finset.card_range c, ← Finset.card_product, Finset.card_range]
  refine Finset.card_nbij' (fun b => (b % c, b / c)) (fun x => x.1 + c * x.2) ?_ ?_ ?_ ?_
  · intro b hb
    obtain ⟨hlt, hP⟩ := mem_below.mp hb
    exact Finset.mem_product.mpr ⟨Finset.mem_range.mpr (Nat.mod_lt b hc),
      mem_below.mpr ⟨Nat.div_lt_of_lt_mul hlt, hP⟩⟩
  · rintro ⟨i, k⟩ hx
    obtain ⟨hi, hk⟩ := Finset.mem_product.mp hx
    obtain ⟨hlt, hP⟩ := mem_below.mp hk
    have hi : i < c := Finset.mem_range.mp hi
    have hdiv : (i + c * k) / c = k := by
      rw [Nat.add_mul_div_left _ _ hc, Nat.div_eq_of_lt hi, Nat.zero_add]
    refine mem_below.mpr ⟨?_, hdiv.symm ▸ hP⟩
    calc i + c * k < c + c * k := Nat.add_lt_add_right hi _
      _ = c * (k + 1) := by ring
      _ ≤ c * n := Nat.mul_le_mul_left c hlt
  · exact fun b _ => Nat.mod_add_div b c
  · rintro ⟨i, k⟩ hx
    have hi : i < c := Finset.mem_range.mp (Finset.mem_product.mp hx).1
    refine Prod.ext ?_ ?_
    · show (i + c * k) % c = i
      rw [Nat.add_mul_mod_self_left, Nat.mod_eq_of_lt hi]
    · show (i + c * k) / c = k
      rw [Nat.add_mul_div_left _ _ hc, Nat.div_eq_of_lt hi, Nat.zero_add]

/-- The lowest digit is given. -/
theorem card_mod {d w : ℕ} (hd : d < w) (n : ℕ) :
    (below (w * n) fun k => k % w = d ∧ P (k / w)).card = (below n P).card := by
  have hw : 0 < w := Nat.zero_lt_of_lt hd
  refine Finset.card_nbij' (fun k => k / w) (fun m => d + w * m) ?_ ?_ ?_ ?_
  · intro k hk
    obtain ⟨hlt, _, hP⟩ := mem_below.mp hk
    exact mem_below.mpr ⟨Nat.div_lt_of_lt_mul hlt, hP⟩
  · intro m hm
    obtain ⟨hlt, hP⟩ := mem_below.mp hm
    have hdiv : (d + w * m) / w = m := by
      rw [Nat.add_mul_div_left _ _ hw, Nat.div_eq_of_lt hd, Nat.zero_add]
    refine mem_below.mpr ⟨?_, ?_, hdiv.symm ▸ hP⟩
    · calc d + w * m < w + w * m := Nat.add_lt_add_right hd _
        _ = w * (m + 1) := by ring
        _ ≤ w * n := Nat.mul_le_mul_left w hlt
    · rw [Nat.add_mul_mod_self_left, Nat.mod_eq_of_lt hd]
  · intro k hk
    obtain ⟨_, hmod, _⟩ := mem_below.mp hk
    show d + w * (k / w) = k
    rw [← hmod]
    exact Nat.mod_add_div k w
  · intro m _
    show (d + w * m) / w = m
    rw [Nat.add_mul_div_left _ _ hw, Nat.div_eq_of_lt hd, Nat.zero_add]

/-- The only digit is given. -/
theorem card_digit {d w : ℕ} (hd : d < w) : (below w fun k => k % w = d).card = 1 := by
  rw [Finset.card_eq_one]
  refine ⟨d, Finset.ext fun k => ?_⟩
  rw [mem_below, Finset.mem_singleton]
  constructor
  · rintro ⟨hlt, hmod⟩
    rwa [Nat.mod_eq_of_lt hlt] at hmod
  · rintro rfl
    exact ⟨hd, Nat.mod_eq_of_lt hd⟩

/-- Two digits determine the number. -/
theorem eq_of_digits {w a b a' b' : ℕ} (ha : a < w) (ha' : a' < w)
    (h : w * b + a = w * b' + a') : a = a' ∧ b = b' := by
  have hw : 0 < w := Nat.zero_lt_of_lt ha
  have hmod := congrArg (· % w) h
  have hdiv := congrArg (· / w) h
  simp only [Nat.mul_add_mod, Nat.mod_eq_of_lt ha, Nat.mod_eq_of_lt ha'] at hmod
  simp only [Nat.mul_add_div hw, Nat.div_eq_of_lt ha, Nat.div_eq_of_lt ha', Nat.add_zero] at hdiv
  exact ⟨hmod, hdiv⟩

end MixedRadix
