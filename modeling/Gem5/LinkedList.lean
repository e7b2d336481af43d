/-
# Linked lists in a heap

Reusable infrastructure, with no reference to the simulator.  A heap of nodes is
seen through one of its pointer fields, `next : α → Option α`; `Chain next o l` says
that following the pointers from `o` visits exactly the nodes of `l`.  `advance` is
the walk with a trailing pointer that list code uses to find a position, and
`advance_eq` says where it ends.
-/
import Mathlib

namespace Linked

variable {α : Type*}

/-- Following `next` from `o` visits the nodes of the list and then ends. -/
def Chain (next : α → Option α) : Option α → List α → Prop
  | o, [] => o = none
  | o, a :: l => o = some a ∧ Chain next (next a) l

variable {o : Option α} {next : α → Option α} {l : List α}

@[simp] theorem chain_nil :
    Chain next o [] ↔ o = none := Iff.rfl

@[simp] theorem chain_cons {a : α} :
    Chain next o (a :: l) ↔ o = some a ∧ Chain next (next a) l := Iff.rfl

theorem Chain.eq_head? (h : Chain next o l) :
    o = l.head? := by
  cases l with
  | nil => exact h
  | cons a l => exact h.1

/-- Only the pointers of the visited nodes matter. -/
theorem Chain.congr {next' : α → Option α} (h : Chain next o l) (heq : ∀ a ∈ l, next' a = next a) :
    Chain next' o l := by
  induction l generalizing o with
  | nil => exact h
  | cons a l ih =>
    obtain ⟨ho, hl⟩ := h
    refine ⟨ho, ?_⟩
    rw [heq a List.mem_cons_self]
    exact ih hl fun b hb => heq b (List.mem_cons_of_mem a hb)

/-- The chain behind a node. -/
theorem Chain.behind {pre suf : List α} {p : α} (h : Chain next o (pre ++ p :: suf)) :
    Chain next (next p) suf := by
  induction pre generalizing o with
  | nil => exact h.2
  | cons a pre ih => exact ih h.2

/-- Behind a node the chain can be replaced by another one. -/
theorem Chain.splice {next' : α → Option α} {pre suf suf' : List α} {p : α}
    (h : Chain next o (pre ++ p :: suf)) (hpre : ∀ a ∈ pre, next' a = next a)
    (hsuf : Chain next' (next' p) suf') : Chain next' o (pre ++ p :: suf') := by
  induction pre generalizing o with
  | nil => exact ⟨h.1, hsuf⟩
  | cons a pre ih =>
    obtain ⟨ho, hl⟩ := h
    refine ⟨ho, ?_⟩
    rw [hpre a List.mem_cons_self]
    exact ih hl fun b hb => hpre b (List.mem_cons_of_mem a hb)

/-! ## Walking -/

/-- Walk while the node passes the test, with the previous node at hand.  The result
is `none` when the rounds do not suffice. -/
def advance (next : α → Option α) (test : α → Bool) : ℕ → α → Option α → Option (α × Option α)
  | _, prev, none => some (prev, none)
  | 0, _, some _ => none
  | k + 1, prev, some curr =>
      if test curr then advance next test k curr (next curr) else some (prev, some curr)

/-- **Where the walk ends**: at the first node of the chain that fails the test. -/
theorem advance_eq {test : α → Bool} (h : Chain next o l) {k : ℕ} (hk : l.length ≤ k) (prev : α) :
    advance next test k prev o =
      some ((l.takeWhile test).getLastD prev, (l.dropWhile test).head?) := by
  induction l generalizing o k prev with
  | nil =>
    rw [chain_nil] at h
    subst h
    cases k <;> rfl
  | cons a l ih =>
    obtain ⟨rfl, hl⟩ := h
    cases k with
    | zero => cases hk
    | succ k =>
      unfold advance
      by_cases ha : test a = true
      · rw [if_pos ha, ih hl (Nat.le_of_succ_le_succ hk) a, List.takeWhile_cons_of_pos ha,
          List.dropWhile_cons_of_pos ha, List.getLastD_cons]
      · rw [if_neg ha, List.takeWhile_cons_of_neg ha, List.dropWhile_cons_of_neg ha]
        rfl

end Linked
