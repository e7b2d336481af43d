/-
# Bursts of a refilled queue

Reusable infrastructure, with no reference to the simulator.  In each cycle a queue gives away at
most `width` elements and then gets at most `refill` new ones, as far as `cap` of them fit.  A burst
is the most that it can give away in a number of cycles; giving away less in one cycle never makes
up for it later (`add_burst_le`).
-/
import Mathlib.Tactic

namespace Burst

variable (width refill cap : ℕ)

/-- The most that a queue of `q` elements gives away in `k` cycles. -/
def burst : ℕ → ℕ → ℕ
  | 0, _ => 0
  | k + 1, q => min width q + burst k (min cap (q - min width q + refill))

variable {width refill cap}

theorem burst_succ (k q : ℕ) : burst width refill cap (k + 1) q =
    min width q + burst width refill cap k (min cap (q - min width q + refill)) := rfl

/-- A longer queue gives away no less, and each element more counts at most once. -/
theorem burst_grow (k : ℕ) {q q' : ℕ} (h : q ≤ q') :
    burst width refill cap k q ≤ burst width refill cap k q' ∧
      burst width refill cap k q' ≤ burst width refill cap k q + (q' - q) := by
  induction k generalizing q q' with
  | zero => exact ⟨le_refl _, Nat.zero_le _⟩
  | succ k ih =>
    rw [burst_succ, burst_succ]
    have hrest : min cap (q - min width q + refill) ≤ min cap (q' - min width q' + refill) := by
      omega
    obtain ⟨hmono, hcount⟩ := ih hrest
    constructor <;> omega

theorem burst_mono (k : ℕ) {q q' : ℕ} (h : q ≤ q') :
    burst width refill cap k q ≤ burst width refill cap k q' :=
  (burst_grow k h).1

/-- **Nothing is gained by waiting.**  What a queue gives away in one cycle and the most that it can
give away afterwards are a burst at best. -/
theorem add_burst_le (k : ℕ) {q q' x : ℕ} (hwidth : x ≤ width) (hx : x ≤ q)
    (hq' : q' ≤ min cap (q - x + refill)) :
    x + burst width refill cap k q' ≤ burst width refill cap (k + 1) q := by
  rw [burst_succ]
  have hgreedy : min cap (q - min width q + refill) ≤ min cap (q - x + refill) := by omega
  have hmore : burst width refill cap k _ ≤ burst width refill cap k _ + _ :=
    (burst_grow k hgreedy).2
  have hless : burst width refill cap k _ ≤ burst width refill cap k _ := burst_mono k hq'
  omega

/-- A longer burst is no smaller. -/
theorem burst_le_succ (k q : ℕ) :
    burst width refill cap k q ≤ burst width refill cap (k + 1) q := by
  induction k generalizing q with
  | zero => exact Nat.zero_le _
  | succ k ih =>
    rw [burst_succ, burst_succ (k + 1)]
    exact Nat.add_le_add_left (ih _) _

theorem burst_le_of_le {k k' : ℕ} (h : k ≤ k') (q : ℕ) :
    burst width refill cap k q ≤ burst width refill cap k' q :=
  monotone_nat_of_le_succ (fun j => burst_le_succ j q) h

/-! ## Windows -/

variable (width refill cap)

/-- `l` lists what the queue has given away in the last cycles, the oldest first, and it can hold
`q` elements now: from each of these cycles on the total is a burst at best, however long it goes
on. -/
def Window (l : List ℕ) (q : ℕ) : Prop :=
  ∀ t, t <:+ l → ∀ k,
    t.sum + burst width refill cap k q ≤ burst width refill cap (t.length + k) cap

variable {width refill cap}

theorem window_replicate (k : ℕ) {q : ℕ} (h : q ≤ cap) :
    Window width refill cap (List.replicate k 0) q := by
  intro t ht j
  obtain ⟨_, hzero⟩ := List.suffix_replicate_iff.mp ht
  have hsum : t.sum = 0 := by rw [hzero, List.sum_replicate, smul_zero]
  rw [hsum, zero_add]
  exact (burst_mono j h).trans (burst_le_of_le (Nat.le_add_left j _) cap)

theorem Window.suffix {l l' : List ℕ} {q : ℕ} (h : Window width refill cap l q) (hs : l' <:+ l) :
    Window width refill cap l' q :=
  fun t ht => h t (ht.trans hs)

/-- One more cycle. -/
theorem Window.snoc {l : List ℕ} {q q' x : ℕ} (h : Window width refill cap l q)
    (hwidth : x ≤ width) (hx : x ≤ q) (hq' : q' ≤ min cap (q - x + refill)) :
    Window width refill cap (l ++ [x]) q' := by
  intro t ht k
  rcases List.suffix_concat_iff.mp ht with rfl | ⟨t, rfl, hts⟩
  · rw [List.sum_nil, zero_add]
    have hcap : q' ≤ cap := hq'.trans (min_le_left _ _)
    exact (burst_mono k hcap).trans (burst_le_of_le (Nat.le_add_left k _) cap)
  · have hstep : x + burst width refill cap k q' ≤ burst width refill cap (k + 1) q :=
      add_burst_le k hwidth hx hq'
    have hrest := h t hts (k + 1)
    rw [List.sum_append, List.sum_singleton, List.length_append, List.length_singleton,
      Nat.add_assoc t.length 1 k, Nat.add_comm 1 k]
    omega

/-- The total of the window with what comes after it. -/
theorem Window.sum_le {l : List ℕ} {q : ℕ} (h : Window width refill cap l q) (k : ℕ) :
    l.sum + burst width refill cap k q ≤ burst width refill cap (l.length + k) cap :=
  h l (List.suffix_refl l) k

end Burst
