/-
# Trees of direction bits

Reusable infrastructure, with no reference to the simulator.  Every inner node of a complete binary
tree holds a bit, the direction to one of its two subtrees; a node is the path that leads to it from
the root.  Following the bits selects a leaf, and a leaf can make the bits on its path point to it or
away from it.  A tree whose selected leaf turns the bits away from itself, over and over, is a rotor:
it selects the leaves in turn.
-/
import Mathlib

namespace BitTree

/-- The bit of every node. -/
abbrev Bits := List Bool → Bool

/-- The subtree in one direction. -/
def sub (f : Bits) (d : Bool) : Bits := fun q => f (d :: q)

/-- The leaf at depth `k` that the bits lead to. -/
def select : ℕ → Bits → List Bool
  | 0, _ => []
  | k + 1, f => f [] :: select k (sub f (f []))

/-- The bits after every node on the path to the leaf `p` has been given the bit that `bit` makes of
its direction towards the leaf. -/
def update (bit : Bool → Bool) : List Bool → Bits → Bits
  | [], f => f
  | d :: p, f => fun
    | [] => bit d
    | c :: q => if c = d then update bit p (sub f d) q else f (c :: q)

/-- The selected leaf turns the bits on its path away from itself. -/
def rotate (k : ℕ) (f : Bits) : Bits := update (!·) (select k f) f

/-- The leaves that are selected in `n` rounds. -/
def selections (k : ℕ) : ℕ → Bits → List (List Bool)
  | 0, _ => []
  | n + 1, f => select k f :: selections k n (rotate k f)

/-- The leaves at depth `k`, from the left. -/
def leaves : ℕ → List (List Bool)
  | 0 => [[]]
  | k + 1 => (leaves k).map (false :: ·) ++ (leaves k).map (true :: ·)

/-! ## Selecting and updating -/

theorem length_select (k : ℕ) (f : Bits) : (select k f).length = k := by
  induction k generalizing f with
  | zero => rfl
  | succ k ih => simp [select, ih]

@[simp] theorem update_root (bit : Bool → Bool) (d : Bool) (p : List Bool) (f : Bits) :
    update bit (d :: p) f [] = bit d := rfl

@[simp] theorem sub_update_same (bit : Bool → Bool) (d : Bool) (p : List Bool) (f : Bits) :
    sub (update bit (d :: p) f) d = update bit p (sub f d) := by
  funext q
  simp [sub, update]

@[simp] theorem sub_update_other (bit : Bool → Bool) (d : Bool) (p : List Bool) (f : Bits) :
    sub (update bit (d :: p) f) (!d) = sub f (!d) := by
  funext q
  simp [sub, update]

theorem length_leaves (k : ℕ) : ∀ q ∈ leaves k, q.length = k := by
  induction k with
  | zero => simp [leaves]
  | succ k ih =>
    intro q hq
    rcases List.mem_append.mp hq with hq | hq
    · obtain ⟨r, hr, rfl⟩ := List.mem_map.mp hq
      rw [List.length_cons, ih r hr]
    · obtain ⟨r, hr, rfl⟩ := List.mem_map.mp hq
      rw [List.length_cons, ih r hr]

/-- **The bits lead to a leaf that they have been pointed to.** -/
theorem select_update_towards (p : List Bool) (f : Bits) :
    select p.length (update id p f) = p := by
  induction p generalizing f with
  | nil => rfl
  | cons d p ih =>
    change id d :: select p.length (sub (update id (d :: p) f) (id d)) = d :: p
    rw [id_eq, sub_update_same, ih]

/-- **The bits lead to another leaf** once they have been pointed away from one. -/
theorem select_update_away {p : List Bool} (hp : p ≠ []) (k : ℕ) (f : Bits) :
    select k (update (!·) p f) ≠ p := by
  obtain ⟨d, q, rfl⟩ := List.exists_cons_of_ne_nil hp
  cases k with
  | zero => simp [select]
  | succ k => simp [select]

/-- Updating a longer path is setting its last node first. -/
theorem update_append (bit : Bool → Bool) (q : List Bool) (d : Bool) (f : Bits) :
    update bit (q ++ [d]) f = update bit q (Function.update f q (bit d)) := by
  induction q generalizing f with
  | nil =>
    funext r
    cases r with
    | nil => rfl
    | cons c r =>
      by_cases hc : c = d
      · subst hc
        simp [update, sub, Function.update]
      · simp [update, hc, Function.update]
  | cons e q ih =>
    have hsub : sub (Function.update f (e :: q) (bit d)) e
        = Function.update (sub f e) q (bit d) := by
      funext r
      simp [sub, Function.update]
    funext r
    cases r with
    | nil => rfl
    | cons c r =>
      by_cases hc : c = e
      · subst hc
        change sub (update bit (c :: (q ++ [d])) f) c r
          = sub (update bit (c :: q) (Function.update f (c :: q) (bit d))) c r
        rw [sub_update_same, sub_update_same, hsub, ih]
      · simp [update, hc, Function.update]

/-! ## Rotating -/

/-- One round selects in the subtree that the root points to, and turns the root. -/
theorem rotate_root (k : ℕ) (f : Bits) : rotate (k + 1) f [] = !f [] := rfl

theorem sub_rotate_same (k : ℕ) (f : Bits) :
    sub (rotate (k + 1) f) (f []) = rotate k (sub f (f [])) := by
  change sub (update (!·) (f [] :: select k (sub f (f []))) f) (f []) = _
  rw [sub_update_same]
  rfl

theorem sub_rotate_other (k : ℕ) (f : Bits) :
    sub (rotate (k + 1) f) (!f []) = sub f (!f []) := by
  change sub (update (!·) (f [] :: select k (sub f (f []))) f) (!f []) = _
  rw [sub_update_other]

/-- Two rounds turn the root twice, and each subtree once. -/
theorem sub_rotate_twice (k : ℕ) (f : Bits) (d : Bool) :
    sub (rotate (k + 1) (rotate (k + 1) f)) d = rotate k (sub f d) := by
  have hroot := rotate_root k f
  have hsame := sub_rotate_same k (rotate (k + 1) f)
  have hother := sub_rotate_other k (rotate (k + 1) f)
  rw [hroot] at hsame hother
  rw [sub_rotate_other] at hsame
  rw [Bool.not_not, sub_rotate_same] at hother
  by_cases hd : d = f []
  · rw [hd]
    exact hother
  · have hd' : d = !f [] := Bool.eq_not_of_ne hd
    rw [hd']
    exact hsame

/-- The leaves that two rounds select: one in each subtree. -/
theorem selections_two (k n : ℕ) (f : Bits) :
    (selections (k + 1) (n + 2) f).Perm
      ((false :: select k (sub f false)) :: (true :: select k (sub f true)) ::
        selections (k + 1) n (rotate (k + 1) (rotate (k + 1) f))) := by
  have hfirst : select (k + 1) f = f [] :: select k (sub f (f [])) := rfl
  have hsecond : select (k + 1) (rotate (k + 1) f) = (!f []) :: select k (sub f (!f [])) := by
    rw [← sub_rotate_other k f]
    rfl
  change (select (k + 1) f :: select (k + 1) (rotate (k + 1) f) :: _).Perm _
  rw [hfirst, hsecond]
  cases f [] with
  | false => exact List.Perm.refl _
  | true => exact List.Perm.swap _ _ _

/-- An even number of rounds selects in both subtrees half as often. -/
theorem selections_even (k m : ℕ) (f : Bits) :
    (selections (k + 1) (2 * m) f).Perm
      ((selections k m (sub f false)).map (false :: ·) ++
        (selections k m (sub f true)).map (true :: ·)) := by
  induction m generalizing f with
  | zero => exact List.Perm.refl _
  | succ m ih =>
    have hrest := ih (rotate (k + 1) (rotate (k + 1) f))
    rw [sub_rotate_twice, sub_rotate_twice] at hrest
    refine (selections_two k (2 * m) f).trans ?_
    simp only [selections, List.map_cons, List.cons_append]
    refine List.Perm.cons _ ?_
    exact (List.Perm.cons _ hrest).trans List.perm_middle.symm

/-- **The rotor law.**  As many rounds as there are leaves select each leaf once. -/
theorem selections_perm (k : ℕ) (f : Bits) : (selections k (2 ^ k) f).Perm (leaves k) := by
  induction k generalizing f with
  | zero => exact List.Perm.refl _
  | succ k ih =>
    rw [Nat.pow_succ, Nat.mul_comm]
    refine (selections_even k (2 ^ k) f).trans ?_
    exact ((ih (sub f false)).map _).append ((ih (sub f true)).map _)

end BitTree
