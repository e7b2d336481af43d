/-
# Counting occurrences

Reusable facts about finite sums and multisets, with no reference to the
simulator: a sum when one of its terms changes, the values of a partial map on
an initial segment as a multiset (`valuesBelow`), and how a total count of one
over a list and two families of lists singles out one position
(`existsUnique_place`).
-/
import Mathlib

namespace Counting

variable {ι α β M : Type*}

/-! ## Sums with one term changed -/

/-- Replacing the argument of one term of a sum. -/
theorem sum_update [Fintype ι] [DecidableEq ι] [AddCommMonoid M] (g : α → M) (f : ι → α)
    (a : ι) (v : α) : (∑ t, g (Function.update f a v t)) + g (f a) = (∑ t, g (f t)) + g v := by
  have hrest : ∑ t ∈ Finset.univ.erase a, g (Function.update f a v t) =
      ∑ t ∈ Finset.univ.erase a, g (f t) := by
    refine Finset.sum_congr rfl fun t ht => ?_
    rw [Function.update_of_ne (Finset.ne_of_mem_erase ht)]
  rw [← Finset.add_sum_erase _ _ (Finset.mem_univ a), hrest,
    ← Finset.add_sum_erase Finset.univ (fun t => g (f t)) (Finset.mem_univ a),
    Function.update_self]
  abel

/-! ## The values of a partial map -/

/-- The values of a partial map on `0, …, n - 1`, with multiplicity. -/
def valuesBelow (n : ℕ) (f : ℕ → Option α) : Multiset α := ((List.range n).filterMap f : List α)

theorem valuesBelow_congr {n : ℕ} {f g : ℕ → Option α} (h : ∀ i < n, f i = g i) :
    valuesBelow n f = valuesBelow n g := by
  unfold valuesBelow
  rw [List.filterMap_congr fun i hi => h i (List.mem_range.mp hi)]

theorem valuesBelow_succ (n : ℕ) (f : ℕ → Option α) :
    valuesBelow (n + 1) f = valuesBelow n f + ((f n).toList : Multiset α) := by
  unfold valuesBelow
  rw [List.range_succ, List.filterMap_append, Multiset.coe_add]
  cases hf : f n with
  | none => simp [hf]
  | some a => simp [hf]

/-- Changing one defined value trades the old value for the new one. -/
theorem valuesBelow_update {n i : ℕ} {f : ℕ → Option α} {a : α} (b : α) (hi : i < n)
    (ha : f i = some a) :
    valuesBelow n (Function.update f i (some b)) + {a} = valuesBelow n f + {b} := by
  induction n with
  | zero => exact absurd hi (Nat.not_lt_zero i)
  | succ n ih =>
    rw [valuesBelow_succ, valuesBelow_succ]
    by_cases hin : i = n
    · subst hin
      have hlow : valuesBelow i (Function.update f i (some b)) = valuesBelow i f :=
        valuesBelow_congr fun j hj => Function.update_of_ne (by omega) _ _
      rw [hlow, Function.update_self, ha]
      simp only [Option.toList_some, Multiset.coe_singleton]
      abel
    · rw [Function.update_of_ne (Ne.symm hin)]
      have := ih (by omega)
      calc valuesBelow n (Function.update f i (some b)) + ((f n).toList : Multiset α) + {a}
          = valuesBelow n (Function.update f i (some b)) + {a} + ((f n).toList : Multiset α) := by
            abel
        _ = valuesBelow n f + ((f n).toList : Multiset α) + {b} := by rw [this]; abel

/-- A total map has as many values as arguments. -/
theorem card_valuesBelow {n : ℕ} {f : ℕ → Option α} (h : ∀ i < n, (f i).isSome = true) :
    (valuesBelow n f).card = n := by
  induction n with
  | zero => rfl
  | succ n ih =>
    obtain ⟨a, ha⟩ := Option.isSome_iff_exists.mp (h n (by omega))
    rw [valuesBelow_succ, Multiset.card_add, ih fun i hi => h i (by omega), ha]
    rfl

theorem mem_valuesBelow {n : ℕ} {f : ℕ → Option α} {a : α} :
    a ∈ valuesBelow n f ↔ ∃ i < n, f i = some a := by
  unfold valuesBelow
  rw [Multiset.mem_coe, List.mem_filterMap]
  simp only [List.mem_range]

/-- A list is the values of its own lookup, also after a partial map. -/
theorem filterMap_eq_valuesBelow (l : List α) (g : α → Option β) :
    (l.filterMap g : Multiset β) = valuesBelow l.length fun k => l[k]?.bind g := by
  induction l using List.reverseRecOn with
  | nil => rfl
  | append_singleton l a ih =>
    have hlow : valuesBelow l.length (fun k => (l ++ [a])[k]?.bind g) =
        valuesBelow l.length fun k => l[k]?.bind g :=
      valuesBelow_congr fun k hk => by rw [List.getElem?_append_left hk]
    rw [List.length_append, List.length_singleton, valuesBelow_succ, hlow, ← ih,
      List.filterMap_append, ← Multiset.coe_add]
    cases hg : g a with
    | none => simp [hg]
    | some b => simp [hg]

/-- The values on a longer segment, split at a point. -/
theorem valuesBelow_add (a b : ℕ) (f : ℕ → Option α) :
    valuesBelow (a + b) f = valuesBelow a f + valuesBelow b fun i => f (a + i) := by
  unfold valuesBelow
  rw [List.range_add, List.filterMap_append, List.filterMap_map, Multiset.coe_add]
  rfl

/-- Consecutive segments of equal length make one segment. -/
theorem sum_valuesBelow (n k : ℕ) (f : ℕ → Option α) :
    ∑ t : Fin n, valuesBelow k (fun i => f (t * k + i)) = valuesBelow (n * k) f := by
  induction n with
  | zero => simp [valuesBelow]
  | succ n ih =>
    rw [Fin.sum_univ_castSucc, Nat.succ_mul, valuesBelow_add, ← ih]
    simp

theorem valuesBelow_some (n : ℕ) (g : ℕ → α) :
    valuesBelow n (fun i => some (g i)) = ((List.range n).map g : List α) := by
  unfold valuesBelow
  rw [← List.filterMap_eq_map]
  rfl

/-- Splitting every value into `k` parts splits the multiset of values. -/
theorem valuesBelow_mul (a k : ℕ) (hk : 0 < k) (f : ℕ → Option α) (g : α → ℕ → β) :
    valuesBelow (a * k) (fun i => (f (i / k)).map fun x => g x (i % k)) =
      (valuesBelow a f).bind fun x => ((List.range k).map (g x) : List β) := by
  induction a with
  | zero => simp [valuesBelow]
  | succ a ih =>
    have hlast : valuesBelow k (fun i => (f ((a * k + i) / k)).map fun x => g x ((a * k + i) % k)) =
        valuesBelow k fun i => (f a).map fun x => g x i := by
      refine valuesBelow_congr fun i hi => ?_
      have hdiv : (a * k + i) / k = a := by
        rw [Nat.mul_comm, Nat.mul_add_div hk, Nat.div_eq_of_lt hi, Nat.add_zero]
      have hmod : (a * k + i) % k = i := by
        rw [Nat.mul_comm, Nat.mul_add_mod, Nat.mod_eq_of_lt hi]
      rw [hdiv, hmod]
    rw [Nat.succ_mul, valuesBelow_add, ih, hlast, valuesBelow_succ, Multiset.add_bind]
    cases f a with
    | none => simp [valuesBelow]
    | some x =>
      simp only [Option.map_some, Option.toList_some, Multiset.coe_singleton,
        Multiset.singleton_bind]
      rw [valuesBelow_some]

/-- Counting a value is counting the arguments that give it. -/
theorem count_valuesBelow [DecidableEq α] (n : ℕ) (f : ℕ → Option α) (a : α) :
    (valuesBelow n f).count a = ((Finset.range n).filter fun i => f i = some a).card := by
  induction n with
  | zero => rfl
  | succ n ih =>
    rw [valuesBelow_succ, Multiset.count_add, ih, Finset.range_add_one, Finset.filter_insert]
    cases hf : f n with
    | none => simp
    | some b =>
      by_cases hb : b = a
      · subst hb
        rw [if_pos rfl, Finset.card_insert_of_notMem (by simp)]
        simp
      · rw [if_neg (by simpa using hb)]
        simpa using Ne.symm hb

/-! ## One place -/

/-- A family of finite sets with one element altogether. -/
theorem existsUnique_of_sum_card [Fintype ι] [DecidableEq ι] {G : ι → Finset ℕ}
    (h : ∑ t, (G t).card = 1) : ∃! q : ι × ℕ, q.2 ∈ G q.1 := by
  rw [← Finset.card_sigma, Finset.card_eq_one] at h
  obtain ⟨⟨t, i⟩, hq⟩ := h
  refine ⟨(t, i), ?_, fun q hmem => ?_⟩
  · have : (⟨t, i⟩ : Σ _ : ι, ℕ) ∈ Finset.univ.sigma G := by
      rw [hq]
      exact Finset.mem_singleton_self _
    exact (Finset.mem_sigma.mp this).2
  · have : (⟨q.1, q.2⟩ : Σ _ : ι, ℕ) ∈ Finset.univ.sigma G :=
      Finset.mem_sigma.mpr ⟨Finset.mem_univ _, hmem⟩
    rw [hq, Finset.mem_singleton] at this
    cases this
    rfl

theorem eq_empty_of_sum_card [Fintype ι] {G : ι → Finset ℕ} (h : ∑ t, (G t).card = 0) (t : ι) :
    G t = ∅ :=
  Finset.card_eq_zero.mp (Finset.sum_eq_zero_iff.mp h t (Finset.mem_univ t))

/-- A place: a position of the one set, or a position of a member of one of the
two families. -/
inductive Place (ι : Type*) where
  | only (k : ℕ)
  | left (t : ι) (k : ℕ)
  | right (t : ι) (k : ℕ)

/-- The position belongs to its set. -/
def Place.In (F : Finset ℕ) (G H : ι → Finset ℕ) : Place ι → Prop
  | .only k => k ∈ F
  | .left t k => k ∈ G t
  | .right t k => k ∈ H t

/-- **A total count of one is one place.** -/
theorem existsUnique_place [Fintype ι] [DecidableEq ι] {F : Finset ℕ} {G H : ι → Finset ℕ}
    (h : F.card + ∑ t, (G t).card + ∑ t, (H t).card = 1) : ∃! q : Place ι, q.In F G H := by
  have hcases : (F.card = 1 ∧ ∑ t, (G t).card = 0 ∧ ∑ t, (H t).card = 0) ∨
      (F.card = 0 ∧ ∑ t, (G t).card = 1 ∧ ∑ t, (H t).card = 0) ∨
      (F.card = 0 ∧ ∑ t, (G t).card = 0 ∧ ∑ t, (H t).card = 1) := by omega
  rcases hcases with ⟨hF, hG, hH⟩ | ⟨hF, hG, hH⟩ | ⟨hF, hG, hH⟩
  · obtain ⟨k, hk⟩ := Finset.card_eq_one.mp hF
    refine ⟨.only k, by simp [Place.In, hk], fun q hq => ?_⟩
    cases q with
    | only k' => simpa [Place.In, hk] using hq
    | left t i => simp [Place.In, eq_empty_of_sum_card hG t] at hq
    | right t i => simp [Place.In, eq_empty_of_sum_card hH t] at hq
  · obtain ⟨⟨t, i⟩, hti, huniq⟩ := existsUnique_of_sum_card hG
    refine ⟨.left t i, hti, fun q hq => ?_⟩
    cases q with
    | only k' => simp [Place.In, Finset.card_eq_zero.mp hF] at hq
    | left t' i' =>
      obtain ⟨rfl, rfl⟩ := Prod.mk.inj (huniq (t', i') hq)
      rfl
    | right t' i' => simp [Place.In, eq_empty_of_sum_card hH t'] at hq
  · obtain ⟨⟨t, i⟩, hti, huniq⟩ := existsUnique_of_sum_card hH
    refine ⟨.right t i, hti, fun q hq => ?_⟩
    cases q with
    | only k' => simp [Place.In, Finset.card_eq_zero.mp hF] at hq
    | left t' i' => simp [Place.In, eq_empty_of_sum_card hG t'] at hq
    | right t' i' =>
      obtain ⟨rfl, rfl⟩ := Prod.mk.inj (huniq (t', i') hq)
      rfl

end Counting
