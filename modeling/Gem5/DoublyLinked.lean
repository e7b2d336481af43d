/-
# Doubly linked lists in a heap

Reusable infrastructure, with no reference to the simulator.  A heap of nodes is seen through its
two pointer fields; `DoublyLinked next prev head tail l` says that the nodes of `l`, in this order,
are linked both ways between the head and the tail pointer.  The two operations of a list kept in
order of use move a node to the front or to the back; they are stated by what each pointer is
afterwards, so that they fit any order in which a program writes the fields.
-/
import Mathlib

/-- The nodes of `l` are linked in both directions. -/
structure DoublyLinked {α : Type*} (next prev : α → Option α) (head tail : Option α)
    (l : List α) : Prop where
  nodup : l.Nodup
  head : head = l[0]?
  tail : tail = l[l.length - 1]?
  next : ∀ i x, l[i]? = some x → next x = l[i + 1]?
  prev : ∀ i x, l[i]? = some x → prev x = if i = 0 then none else l[i - 1]?

namespace DoublyLinked

variable {α : Type*} {l : List α} {k : ℕ} {x : α}

/-! ## Positions after a move -/

/-- The node at position `k` moved to the front. -/
theorem getElem?_toFront (l : List α) (k : ℕ) (x : α) (i : ℕ) :
    (x :: l.eraseIdx k)[i]? = if i = 0 then some x else if i ≤ k then l[i - 1]? else l[i]? := by
  cases i with
  | zero => rfl
  | succ i =>
    rw [List.getElem?_cons_succ, List.getElem?_eraseIdx, if_neg (Nat.succ_ne_zero i)]
    by_cases hik : i < k
    · rw [if_pos hik, if_pos (by omega), Nat.add_sub_cancel]
    · rw [if_neg hik, if_neg (by omega)]

/-- The node at position `k` moved to the back. -/
theorem getElem?_toBack (hx : l[k]? = some x) (i : ℕ) :
    (l.eraseIdx k ++ [x])[i]? = if i < k then l[i]? else if i + 1 < l.length then l[i + 1]?
      else if i + 1 = l.length then some x else none := by
  have hk : k < l.length := (List.getElem?_eq_some_iff.mp hx).1
  have hlen : (l.eraseIdx k).length = l.length - 1 := List.length_eraseIdx_of_lt hk
  by_cases hi : i + 1 < l.length
  · rw [List.getElem?_append_left (by omega), List.getElem?_eraseIdx, if_pos hi]
  · rw [List.getElem?_append_right (by omega), hlen, if_neg hi, if_neg (by omega)]
    by_cases heq : i + 1 = l.length
    · rw [if_pos heq, show i - (l.length - 1) = 0 by omega]
      rfl
    · rw [if_neg heq]
      exact List.getElem?_eq_none (by simp only [List.length_singleton]; omega)

/-- The first node is at the front already. -/
theorem toFront_zero (hx : l[0]? = some x) : x :: l.eraseIdx 0 = l := by
  obtain ⟨hlt, rfl⟩ := List.getElem?_eq_some_iff.mp hx
  rw [List.eraseIdx_zero, ← List.drop_one, ← List.drop_eq_getElem_cons hlt, List.drop_zero]

theorem perm_toFront (hx : l[k]? = some x) : (x :: l.eraseIdx k).Perm l := by
  obtain ⟨hk, rfl⟩ := List.getElem?_eq_some_iff.mp hx
  exact List.getElem_cons_eraseIdx_perm hk

theorem perm_toBack (hx : l[k]? = some x) : (l.eraseIdx k ++ [x]).Perm l :=
  (List.perm_append_singleton x _).trans (perm_toFront hx)

/-! ## The links -/

variable {next prev : α → Option α} {head tail : Option α}

/-- Different positions hold different nodes. -/
theorem index_inj (h : DoublyLinked next prev head tail l) {i j : ℕ} {y : α}
    (hi : l[i]? = some y) (hj : l[j]? = some y) : i = j :=
  (List.getElem?_inj (List.getElem?_eq_some_iff.mp hi).1 h.nodup).mp (hi.trans hj.symm)

theorem ne_of_index (h : DoublyLinked next prev head tail l) {i j : ℕ} {y z : α}
    (hi : l[i]? = some y) (hj : l[j]? = some z) (hij : i ≠ j) : y ≠ z := by
  rintro rfl
  exact hij (h.index_inj hi hj)

theorem ne_getElem? (h : DoublyLinked next prev head tail l) {i j : ℕ} {y : α}
    (hi : l[i]? = some y) (hij : i ≠ j) : ¬ some y = l[j]? :=
  fun hj => hij (h.index_inj hi hj.symm)

/-- A node other than the first one has a node before it. -/
theorem prev_pos (h : DoublyLinked next prev head tail l) (hx : l[k]? = some x) (hk : 0 < k) :
    prev x = l[k - 1]? := by
  rw [h.prev k x hx, if_neg (by omega)]

theorem eq_head_iff (h : DoublyLinked next prev head tail l) (hx : l[k]? = some x) :
    some x = head ↔ k = 0 := by
  rw [h.head]
  constructor
  · intro h0
    exact h.index_inj hx h0.symm
  · rintro rfl
    exact hx.symm

theorem eq_tail_iff (h : DoublyLinked next prev head tail l) (hx : l[k]? = some x) :
    some x = tail ↔ k + 1 = l.length := by
  have hk : k < l.length := (List.getElem?_eq_some_iff.mp hx).1
  rw [h.tail]
  constructor
  · intro hlast
    have := h.index_inj hx hlast.symm
    omega
  · intro hlast
    rw [← hlast, Nat.add_sub_cancel, hx]

/-- **Moving to the front.**  A node that is not the first one is taken out and linked in before
the head. -/
theorem moveFront [DecidableEq α] (h : DoublyLinked next prev head tail l) (hx : l[k]? = some x)
    (hk : 0 < k) {next' prev' : α → Option α} {tail' : Option α}
    (hnext : ∀ y, next' y = if y = x then head else if some y = prev x then next x else next y)
    (hprev : ∀ y, prev' y = if some y = head then some x else if y = x then none
      else if some y = next x then prev x else prev y)
    (htail : tail' = if some x = tail then prev x else tail) :
    DoublyLinked next' prev' (some x) tail' (x :: l.eraseIdx k) where
  nodup := (perm_toFront hx).nodup_iff.mpr h.nodup
  head := rfl
  tail := by
    have hlt : k < l.length := (List.getElem?_eq_some_iff.mp hx).1
    rw [(perm_toFront hx).length_eq, getElem?_toFront, if_neg (by omega), htail]
    by_cases hlast : k + 1 = l.length
    · rw [if_pos ((h.eq_tail_iff hx).mpr hlast), if_pos (by omega), h.prev_pos hx hk]
      congr 1
      omega
    · rw [if_neg fun ht => hlast ((h.eq_tail_iff hx).mp ht), if_neg (by omega), h.tail]
  next := by
    intro i y hy
    rw [getElem?_toFront] at hy
    rw [hnext, getElem?_toFront, if_neg (Nat.succ_ne_zero i), Nat.add_sub_cancel,
      h.prev_pos hx hk, h.next k x hx]
    by_cases hi0 : i = 0
    · subst hi0
      rw [if_pos rfl] at hy
      obtain rfl := Option.some.inj hy
      rw [if_pos rfl, if_pos (by omega), h.head]
    rw [if_neg hi0] at hy
    by_cases hik : i ≤ k
    · -- a node that was before `x`: the last of them now links to what followed `x`
      rw [if_pos hik] at hy
      rw [if_neg (h.ne_of_index hy hx (by omega))]
      by_cases hlast : i = k
      · rw [if_pos (hlast ▸ hy.symm), if_neg (by omega), hlast]
      · rw [if_neg (h.ne_getElem? hy (by omega)), if_pos (by omega), h.next _ y hy]
        congr 1
        omega
    · rw [if_neg hik] at hy
      rw [if_neg (h.ne_of_index hy hx (by omega)), if_neg (h.ne_getElem? hy (by omega)),
        if_neg (by omega), h.next i y hy]
  prev := by
    intro i y hy
    rw [getElem?_toFront] at hy
    rw [hprev, h.prev_pos hx hk, h.next k x hx]
    by_cases hi0 : i = 0
    · subst hi0
      rw [if_pos rfl] at hy
      obtain rfl := Option.some.inj hy
      have hnh : ¬ some x = head := fun hh => hk.ne' ((h.eq_head_iff hx).mp hh)
      rw [if_neg hnh, if_pos rfl, if_pos rfl]
    rw [if_neg hi0] at hy ⊢
    rw [getElem?_toFront]
    by_cases hik : i ≤ k
    · rw [if_pos hik] at hy
      by_cases hi1 : i = 1
      · -- the old head now follows `x`
        subst hi1
        rw [if_pos ((h.eq_head_iff hy).mpr rfl), if_pos rfl]
      · have hnh : ¬ some y = head := by
          rw [h.eq_head_iff hy]
          omega
        rw [if_neg hnh, if_neg (h.ne_of_index hy hx (by omega)),
          if_neg (h.ne_getElem? hy (by omega)), if_neg (by omega), if_pos (by omega),
          h.prev_pos hy (by omega)]
    · rw [if_neg hik] at hy
      have hnh : ¬ some y = head := by
        rw [h.eq_head_iff hy]
        omega
      rw [if_neg hnh, if_neg (h.ne_of_index hy hx (by omega))]
      by_cases hik1 : i = k + 1
      · -- the node behind `x` now links back to the one before `x`
        subst hik1
        rw [if_pos hy.symm, if_neg (by omega), if_pos (by omega), Nat.add_sub_cancel]
      · rw [if_neg (h.ne_getElem? hy hik1), if_neg (by omega), if_neg (by omega),
          h.prev_pos hy (by omega)]

/-- **Moving to the back.**  A node that is not the last one is taken out and linked in behind the
tail. -/
theorem moveBack [DecidableEq α] (h : DoublyLinked next prev head tail l) (hx : l[k]? = some x)
    (hk : k + 1 < l.length) {next' prev' : α → Option α} {head' : Option α}
    (hnext : ∀ y, next' y = if some y = tail then some x else if y = x then none
      else if some y = prev x then next x else next y)
    (hprev : ∀ y, prev' y = if y = x then tail else if some y = next x then prev x else prev y)
    (hhead : head' = if some x = head then next x else head) :
    DoublyLinked next' prev' head' (some x) (l.eraseIdx k ++ [x]) where
  nodup := (perm_toBack hx).nodup_iff.mpr h.nodup
  head := by
    rw [getElem?_toBack hx, hhead]
    by_cases hk0 : k = 0
    · rw [if_pos ((h.eq_head_iff hx).mpr hk0), if_neg (by omega), if_pos (by omega),
        h.next k x hx, hk0]
    · rw [if_neg fun hh => hk0 ((h.eq_head_iff hx).mp hh), if_pos (by omega), h.head]
  tail := by
    rw [(perm_toBack hx).length_eq, getElem?_toBack hx, if_neg (by omega), if_neg (by omega),
      if_pos (by omega)]
  next := by
    intro i y hy
    rw [getElem?_toBack hx] at hy
    rw [hnext, getElem?_toBack hx, h.next k x hx]
    by_cases hik : i < k
    · rw [if_pos hik] at hy
      have hnt : ¬ some y = tail := by
        rw [h.eq_tail_iff hy]
        omega
      rw [if_neg hnt, if_neg (h.ne_of_index hy hx (by omega)), h.prev_pos hx (by omega)]
      by_cases hlast : i = k - 1
      · -- the node before `x` now links to what followed `x`
        rw [if_pos (hlast ▸ hy.symm), if_neg (by omega), if_pos (by omega)]
        congr 1
        omega
      · rw [if_neg (h.ne_getElem? hy hlast), if_pos (by omega), h.next i y hy]
    rw [if_neg hik] at hy
    by_cases hi : i + 1 < l.length
    · rw [if_pos hi] at hy
      by_cases hlast : i + 2 = l.length
      · -- the old tail is now followed by `x`
        rw [if_pos ((h.eq_tail_iff hy).mpr hlast), if_neg (by omega), if_neg (by omega),
          if_pos (by omega)]
      · have hnt : ¬ some y = tail := by
          rw [h.eq_tail_iff hy]
          omega
        have hnp : ¬ some y = prev x := by
          rw [h.prev k x hx]
          split
          · exact Option.some_ne_none y
          · exact h.ne_getElem? hy (by omega)
        rw [if_neg hnt, if_neg (h.ne_of_index hy hx (by omega)), if_neg hnp, if_neg (by omega),
          if_pos (by omega), h.next _ y hy]
    · rw [if_neg hi] at hy
      by_cases heq : i + 1 = l.length
      · rw [if_pos heq] at hy
        obtain rfl := Option.some.inj hy
        have hnt : ¬ some x = tail := by
          rw [h.eq_tail_iff hx]
          omega
        rw [if_neg hnt, if_pos rfl, if_neg (by omega), if_neg (by omega), if_neg (by omega)]
      · rw [if_neg heq] at hy
        cases hy
  prev := by
    intro i y hy
    rw [getElem?_toBack hx] at hy
    rw [hprev, getElem?_toBack hx, h.next k x hx]
    by_cases hik : i < k
    · rw [if_pos hik] at hy
      rw [if_neg (h.ne_of_index hy hx (by omega)), if_neg (h.ne_getElem? hy (by omega)),
        h.prev i y hy]
      by_cases hi0 : i = 0
      · rw [if_pos hi0, if_pos hi0]
      · rw [if_neg hi0, if_neg hi0, if_pos (by omega)]
    rw [if_neg hik] at hy
    by_cases hi : i + 1 < l.length
    · rw [if_pos hi] at hy
      rw [if_neg (h.ne_of_index hy hx (by omega))]
      by_cases hfirst : i = k
      · -- the node behind `x` now links back to the one before `x`
        subst hfirst
        rw [if_pos hy.symm, h.prev i x hx]
        by_cases hi0 : i = 0
        · rw [if_pos hi0, if_pos hi0]
        · rw [if_neg hi0, if_neg hi0, if_pos (by omega)]
      · rw [if_neg (h.ne_getElem? hy (by omega)), if_neg (by omega), if_neg (by omega),
          if_pos (by omega), h.prev_pos hy (by omega)]
        congr 1
        omega
    · rw [if_neg hi] at hy
      by_cases heq : i + 1 = l.length
      · rw [if_pos heq] at hy
        obtain rfl := Option.some.inj hy
        rw [if_pos rfl, if_neg (by omega), h.tail]
        by_cases hik1 : i - 1 < k
        · omega
        · rw [if_neg hik1, if_pos (by omega)]
          congr 1
          omega
      · rw [if_neg heq] at hy
        cases hy

end DoublyLinked
