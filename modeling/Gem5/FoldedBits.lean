/-
# Folding a sequence of bits

Reusable infrastructure, with no reference to the simulator.  The first `n` bits of a sequence are
folded into a word of `L` bits: bit `j` is the parity of the bits in the residue class of `j` modulo
`L`.  When a bit is put before the sequence, the new word follows from the old one by a rotation and
two more bits (`fold_push`), which is what a shift register computes (`shift_word`).
-/
import Mathlib

namespace FoldedBits

/-- The parity of the bits below `n` whose index is `j` modulo `L`. -/
def fold (f : ℕ → Bool) (L j : ℕ) : ℕ → Bool
  | 0 => false
  | n + 1 => fold f L j n ^^ (decide (n % L = j) && f n)

/-- The residue classes of neighbours. -/
theorem succ_mod_eq_iff {L j : ℕ} (hj : j < L) (n : ℕ) :
    (n + 1) % L = j ↔ n % L = (j + L - 1) % L := by
  have hn : n % L < L := Nat.mod_lt n (by omega)
  have hsucc : (n + 1) % L = if n % L + 1 = L then 0 else n % L + 1 := by
    rw [Nat.add_mod]
    split_ifs with heq
    · rcases Nat.lt_or_ge 1 L with h1 | h1
      · rw [Nat.mod_eq_of_lt h1, heq, Nat.mod_self]
      · obtain rfl : L = 1 := by omega
        exact Nat.mod_one _
    · rw [Nat.mod_eq_of_lt (show 1 < L by omega)]
      exact Nat.mod_eq_of_lt (by omega)
  have hpred : (j + L - 1) % L = if j = 0 then L - 1 else j - 1 := by
    split_ifs with h0
    · rw [h0, Nat.zero_add]
      exact Nat.mod_eq_of_lt (by omega)
    · rw [show j + L - 1 = j - 1 + L by omega, Nat.add_mod_right]
      exact Nat.mod_eq_of_lt (by omega)
  rw [hsucc, hpred]
  split_ifs <;> omega

/-- A sequence with a bit put before it, folded over one more index. -/
theorem fold_succ {f g : ℕ → Bool} (hg : ∀ a, g (a + 1) = f a) {L j : ℕ} (hj : j < L) (n : ℕ) :
    fold g L j (n + 1) = ((decide (j = 0) && g 0) ^^ fold f L ((j + L - 1) % L) n) := by
  induction n with
  | zero =>
    unfold fold fold
    rw [Nat.zero_mod, Bool.false_xor, Bool.xor_false]
    congr 1
    exact decide_eq_decide.mpr eq_comm
  | succ n ih =>
    rw [show fold g L j (n + 1 + 1) =
      (fold g L j (n + 1) ^^ (decide ((n + 1) % L = j) && g (n + 1))) from rfl, ih, hg,
      decide_eq_decide.mpr (succ_mod_eq_iff hj n), Bool.xor_assoc]
    rfl

/-- **One more bit**: the fold rotates, the new bit comes in, and the bit that is too old goes. -/
theorem fold_push {f g : ℕ → Bool} (hg : ∀ a, g (a + 1) = f a) {L j : ℕ} (hj : j < L) (n : ℕ) :
    fold g L j n = (((decide (j = 0) && g 0) ^^ fold f L ((j + L - 1) % L) n) ^^
      (decide (n % L = j) && g n)) := by
  rw [← fold_succ hg hj n]
  show _ = ((fold g L j n ^^ _) ^^ _)
  rw [Bool.xor_assoc, Bool.xor_self, Bool.xor_false]

/-! ## Words -/

variable {w : ℕ}

/-- The folded word. -/
def word (f : ℕ → Bool) (n L : ℕ) : BitVec w :=
  BitVec.ofFnLE fun j => decide (j.val < L) && fold f L j n

theorem getLsbD_word (f : ℕ → Bool) (n : ℕ) {L : ℕ} (hL : L ≤ w) (j : ℕ) :
    (word f n L : BitVec w).getLsbD j = (decide (j < L) && fold f L j n) := by
  rw [word, BitVec.getLsbD_ofFnLE]
  split_ifs with hj
  · rfl
  · rw [decide_eq_false (by omega)]
    rfl

/-- A word that holds one bit. -/
def bit (b : Bool) : BitVec w := if b then 1 else 0

theorem getLsbD_bit (b : Bool) (hw : 0 < w) (j : ℕ) :
    (bit b : BitVec w).getLsbD j = (decide (j = 0) && b) := by
  cases b with
  | false =>
    rw [Bool.and_false]
    exact BitVec.getLsbD_zero
  | true =>
    rw [Bool.and_true]
    show (1#w).getLsbD j = _
    rw [BitVec.getLsbD_one, decide_eq_true hw, Bool.true_and]

/-- A shift register of `L` bits: a bit comes in at the lower end, the one that leaves at the upper
end comes back there, and a third one is cancelled at `out`. -/
def shift (c b o : BitVec w) (out L : ℕ) : BitVec w :=
  let c := (c <<< 1) ||| b
  let c := c ^^^ (o <<< out)
  let c := c ^^^ (c >>> L)
  c &&& BitVec.ofNat w (2 ^ L - 1)

theorem getLsbD_shifted {c : BitVec w} (b o : Bool) (out : ℕ) {j : ℕ} (hj : j < w) :
    (((c <<< 1) ||| bit b) ^^^ ((bit o : BitVec w) <<< out)).getLsbD j =
      (((decide (j ≠ 0) && c.getLsbD (j - 1)) ^^ (decide (j = 0) && b)) ^^
        (decide (j = out) && o)) := by
  have hw : 0 < w := by omega
  rw [BitVec.getLsbD_xor, BitVec.getLsbD_or, BitVec.getLsbD_shiftLeft, BitVec.getLsbD_shiftLeft,
    getLsbD_bit _ hw, getLsbD_bit _ hw, decide_eq_true hj, Bool.true_and, Bool.true_and]
  congr 1
  · by_cases h0 : j = 0
    · subst h0
      simp
    · simp [h0]
  · rw [← Bool.and_assoc]
    congr 1
    by_cases hle : out ≤ j
    · rw [decide_eq_false (not_lt.mpr hle), Bool.not_false, Bool.true_and]
      exact decide_eq_decide.mpr (by omega)
    · rw [decide_eq_true (not_le.mp hle), decide_eq_false (show ¬ j = out by omega)]
      rfl

/-- Behind the word there is only the bit that leaves it. -/
theorem getLsbD_shifted_upper (f : ℕ → Bool) (n : ℕ) {L out : ℕ} (hpos : 0 < L) (hL : L < w)
    (hout : out < L) (b o : Bool) (j : ℕ) :
    ((((word f n L : BitVec w) <<< 1) ||| bit b) ^^^ ((bit o : BitVec w) <<< out)).getLsbD (L + j) =
      (decide (j = 0) && fold f L (L - 1) n) := by
  by_cases hj : L + j < w
  · rw [getLsbD_shifted _ _ _ hj, getLsbD_word _ _ hL.le, decide_eq_false (show L + j ≠ 0 by omega),
      decide_eq_false (show L + j ≠ out by omega), decide_eq_true (show L + j ≠ 0 by omega)]
    by_cases h0 : j = 0
    · rw [h0, decide_eq_true (show L + 0 - 1 < L by omega)]
      simp
    · rw [decide_eq_false h0, decide_eq_false (show ¬ L + j - 1 < L by omega)]
      rfl
  · rw [BitVec.getLsbD_of_ge _ _ (not_lt.mp hj), decide_eq_false (show ¬ j = 0 by omega)]
    rfl

/-- **The shift register computes the fold.** -/
theorem shift_word {f g : ℕ → Bool} (hg : ∀ a, g (a + 1) = f a) (n : ℕ) {L : ℕ} (hpos : 0 < L)
    (hL : L < w) :
    shift (word f n L : BitVec w) (bit (g 0)) (bit (g n)) (n % L) L = word g n L := by
  have hout : n % L < L := Nat.mod_lt n hpos
  refine BitVec.eq_of_getLsbD_eq fun j hj => ?_
  unfold shift
  rw [BitVec.getLsbD_and, BitVec.getLsbD_xor, BitVec.getLsbD_ushiftRight, getLsbD_shifted _ _ _ hj,
    getLsbD_shifted_upper f n hpos hL hout, getLsbD_word _ _ hL.le, getLsbD_word _ _ hL.le,
    BitVec.getLsbD_ofNat, Nat.testBit_two_pow_sub_one, decide_eq_true hj, Bool.true_and,
    Bool.and_comm]
  by_cases hjL : j < L
  · have hcomm : decide (j = n % L) = decide (n % L = j) := decide_eq_decide.mpr eq_comm
    rw [decide_eq_true hjL, Bool.true_and, Bool.true_and, fold_push hg hjL, hcomm]
    by_cases h0 : j = 0
    · subst h0
      rw [Nat.zero_add, Nat.mod_eq_of_lt (show L - 1 < L by omega)]
      simp [Bool.xor_comm, Bool.xor_left_comm]
    · rw [show j + L - 1 = j - 1 + L by omega, Nat.add_mod_right,
        Nat.mod_eq_of_lt (show j - 1 < L by omega), decide_eq_true (show j - 1 < L by omega)]
      simp [h0]
  · rw [decide_eq_false hjL]
    rfl

end FoldedBits
