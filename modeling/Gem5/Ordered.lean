/-
# Ordered lists

Reusable facts about lists kept in an order, with no reference to the simulator.
-/
import Mathlib

namespace Ordered

/-! ## Prefixes of ordered lists -/

/-- On a list where the elements satisfying `q` come first, `takeWhile` is
`filter`. -/
theorem takeWhile_eq_filter {α : Type*} {q : α → Bool} {l : List α}
    (h : l.Pairwise fun a b => q b = true → q a = true) :
    l.takeWhile q = l.filter q ∧ l.dropWhile q = l.filter fun a => !q a := by
  induction l with
  | nil => exact ⟨rfl, rfl⟩
  | cons a l ih =>
    obtain ⟨ha, hl⟩ := List.pairwise_cons.mp h
    cases hq : q a with
    | true =>
      obtain ⟨h1, h2⟩ := ih hl
      rw [List.takeWhile_cons_of_pos hq, List.filter_cons_of_pos hq,
        List.dropWhile_cons_of_pos hq, List.filter_cons_of_neg (by simp [hq]), h1, h2]
      exact ⟨rfl, rfl⟩
    | false =>
      have hrest : ∀ b ∈ l, q b = false := fun b hb => by
        by_contra hb'
        have := ha b hb (by simpa using hb')
        rw [hq] at this
        cases this
      rw [List.takeWhile_cons_of_neg (by simp [hq]), List.filter_cons_of_neg (by simp [hq]),
        List.dropWhile_cons_of_neg (by simp [hq]), List.filter_cons_of_pos (by simp [hq])]
      refine ⟨?_, ?_⟩
      · exact (List.filter_eq_nil_iff.mpr fun b hb => by simp [hrest b hb]).symm
      · rw [List.filter_eq_self.mpr fun b hb => by simp [hrest b hb]]

/-! ## Insertion -/

/-- Ordered insertion behind a prefix that comes before the new element. -/
theorem orderedInsert_append {α : Type*} {r : α → α → Prop} [DecidableRel r] {a : α}
    {l l' : List α} (hl : ∀ b ∈ l, ¬ r a b) (hl' : ∀ b ∈ l'.head?, r a b) :
    List.orderedInsert r a (l ++ l') = l ++ a :: l' := by
  induction l with
  | nil =>
    cases l' with
    | nil => rfl
    | cons b l' => exact List.orderedInsert_cons_of_le r l' (hl' b rfl)
  | cons b l ih =>
    have hb : ¬ r a b := hl b List.mem_cons_self
    rw [List.cons_append, List.orderedInsert, if_neg hb,
      ih fun c hc => hl c (List.mem_cons_of_mem b hc), List.cons_append]

/-- Insert an element before the first one with `p`, if there is one. -/
def insertBefore {α : Type*} (p : α → Bool) (a : α) : List α → Option (List α)
  | [] => none
  | b :: l => if p b then some (a :: b :: l) else (insertBefore p a l).map (b :: ·)

theorem insertBefore_perm {α : Type*} {p : α → Bool} {a : α} {l l' : List α}
    (h : insertBefore p a l = some l') : l'.Perm (a :: l) := by
  induction l generalizing l' with
  | nil => simp [insertBefore] at h
  | cons b l ih =>
    unfold insertBefore at h
    split at h
    · obtain rfl := Option.some.inj h
      exact List.Perm.refl _
    · obtain ⟨m, hm, rfl⟩ := Option.map_eq_some_iff.mp h
      exact ((ih hm).cons b).trans (List.Perm.swap a b l)

/-- There is a place for the element when some element satisfies `p`. -/
theorem insertBefore_isSome {α : Type*} {p : α → Bool} {a : α} {l : List α}
    (h : ∃ b ∈ l, p b = true) : ∃ l', insertBefore p a l = some l' := by
  induction l with
  | nil => simp at h
  | cons b l ih =>
    unfold insertBefore
    split
    · exact ⟨_, rfl⟩
    next hb =>
      obtain ⟨c, hc, hp⟩ := h
      rcases List.mem_cons.mp hc with rfl | hc
      · exact absurd hp hb
      · obtain ⟨l', hl'⟩ := ih ⟨c, hc, hp⟩
        exact ⟨b :: l', by rw [hl', Option.map_some]⟩

/-- A list sorted by a key stays sorted when an element is inserted before the first one with a
greater key. -/
theorem insertBefore_sorted {α ι : Type*} [LinearOrder ι] {t : α → ι} {a : α} {l l' : List α}
    (hl : l.Pairwise fun b c => t b ≤ t c)
    (h : insertBefore (fun b => decide (t a < t b)) a l = some l') :
    l'.Pairwise fun b c => t b ≤ t c := by
  induction l generalizing l' with
  | nil => simp [insertBefore] at h
  | cons b l ih =>
    obtain ⟨hb, hl⟩ := List.pairwise_cons.mp hl
    unfold insertBefore at h
    split at h
    next hlt =>
      obtain rfl := Option.some.inj h
      have hab : t a ≤ t b := (of_decide_eq_true hlt).le
      refine List.pairwise_cons.mpr ⟨?_, List.pairwise_cons.mpr ⟨hb, hl⟩⟩
      intro c hc
      rcases List.mem_cons.mp hc with rfl | hc
      · exact hab
      · exact hab.trans (hb c hc)
    next hge =>
      obtain ⟨m, hm, rfl⟩ := Option.map_eq_some_iff.mp h
      refine List.pairwise_cons.mpr ⟨?_, ih hl hm⟩
      intro c hc
      rcases List.mem_cons.mp ((insertBefore_perm hm).mem_iff.mp hc) with rfl | hc
      · exact not_lt.mp fun hlt => hge (decide_eq_true hlt)
      · exact hb c hc

/-! ## Changing a key -/

theorem dropWhile_ne_of_mem {α : Type*} [DecidableEq α] {a : α} {l : List α} (h : a ∈ l) :
    ∃ rest, l.dropWhile (· ≠ a) = a :: rest := by
  induction l with
  | nil => simp at h
  | cons b l ih =>
    by_cases hba : b = a
    · exact ⟨l, by simp [hba]⟩
    · obtain ⟨rest, hrest⟩ := ih ((List.mem_cons.mp h).resolve_left fun heq => hba heq.symm)
      exact ⟨rest, by rw [List.dropWhile_cons_of_pos (by simp [hba]), hrest]⟩

/-- A list sorted by a key stays sorted when one element gets a new key that fits between those
before it and those after it. -/
theorem pairwise_update {α ι : Type*} [DecidableEq α] [Preorder ι] {t : α → ι} {a : α} {x : ι}
    {l : List α} (hl : l.Pairwise fun b c => t b ≤ t c) (hnd : l.Nodup)
    (hbefore : ∀ b ∈ l.takeWhile (· ≠ a), t b ≤ x)
    (hafter : ∀ b ∈ (l.dropWhile (· ≠ a)).tail, x ≤ t b) :
    l.Pairwise fun b c => Function.update t a x b ≤ Function.update t a x c := by
  induction l with
  | nil => exact List.Pairwise.nil
  | cons b l ih =>
    obtain ⟨hb, hl⟩ := List.pairwise_cons.mp hl
    obtain ⟨hbl, hnd⟩ := List.nodup_cons.mp hnd
    by_cases hba : b = a
    · -- the changed element: those behind it keep their keys
      subst hba
      have hrest : ∀ c ∈ l, Function.update t b x c = t c := by
        intro c hc
        have hcb : c ≠ b := fun h => hbl (by rwa [← h])
        exact Function.update_of_ne hcb x t
      rw [List.dropWhile_cons_of_neg (by simp), List.tail_cons] at hafter
      refine List.pairwise_cons.mpr ⟨?_, ?_⟩
      · intro c hc
        rw [Function.update_self, hrest c hc]
        exact hafter c hc
      · apply hl.imp_of_mem
        intro c d hc hd hcd
        rwa [hrest c hc, hrest d hd]
    · rw [List.takeWhile_cons_of_pos (by simp [hba])] at hbefore
      rw [List.dropWhile_cons_of_pos (by simp [hba])] at hafter
      refine List.pairwise_cons.mpr ⟨?_, ih hl hnd
        (fun c hc => hbefore c (List.mem_cons_of_mem b hc)) hafter⟩
      intro c hc
      rw [Function.update_of_ne hba]
      by_cases hca : c = a
      · rw [hca, Function.update_self]
        exact hbefore b (by simp)
      · rw [Function.update_of_ne hca]
        exact hb c hc

end Ordered
