/-
# Scalar types shared by the out-of-order core

The aliases of `cpu/inst_seq.hh` and `base/types.hh`, and the SMT sharing
policies of `enums/SMTQueuePolicy.hh`.
-/
import Mathlib

namespace Gem5

/-- `InstSeqNum`: the global age of a dynamic instruction, 64 bits wide in the
source and never reused, so a plain natural number. -/
abbrev InstSeqNum := ℕ

/-- `SMTQueuePolicy`: how a shared queue is divided between the hardware threads. -/
inductive SMTQueuePolicy where
  | Dynamic
  | Partitioned
  | Threshold
  deriving DecidableEq, Repr, Inhabited

/-- The value of an `unsigned` difference: subtraction modulo `2 ^ 32`. -/
def unsignedSub (a b : ℕ) : ℕ := (a + 2 ^ 32 - b) % 2 ^ 32

theorem unsignedSub_of_le {a b : ℕ} (ha : a < 2 ^ 32) (h : b ≤ a) : unsignedSub a b = a - b := by
  unfold unsignedSub
  omega

/-- A difference that goes below zero wraps to a large positive number. -/
theorem unsignedSub_pos_of_lt {a b : ℕ} (hb : b < 2 ^ 32) (h : a < b) : 0 < unsignedSub a b := by
  unfold unsignedSub
  omega

end Gem5
