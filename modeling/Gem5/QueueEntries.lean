/-
# The live entries of a circular queue as a list

What the queue shows from its head to its tail.  The operations at the ends and the writes of single
entries are those of a list, as long as the elements fit the slots.
-/
import Gem5.CircularQueue

namespace CircularQueue

variable {α : Type*} {q q' : CircularQueue α}

/-- The live entries, oldest first. -/
def entries (q : CircularQueue α) : List α := (List.range q.size).map fun k => q.get (q.head + k)

@[simp] theorem length_entries (q : CircularQueue α) : q.entries.length = q.size := by
  rw [entries, List.length_map, List.length_range]

theorem getElem?_entries {k : ℕ} (h : k < q.size) : q.entries[k]? = some (q.get (q.head + k)) := by
  rw [entries, List.getElem?_map, List.getElem?_range h]
  rfl

/-- The entry at a valid index. -/
theorem getElem?_entries_sub {i : ℕ} (h : q.IsValidIdx i) :
    q.entries[i - q.head]? = some (q.get i) := by
  obtain ⟨hlow, hhigh⟩ := h
  rw [getElem?_entries (by omega), Nat.add_sub_cancel' hlow]

theorem mem_entries {x : α} : x ∈ q.entries ↔ ∃ i, q.IsValidIdx i ∧ q.get i = x := by
  rw [entries, List.mem_map]
  constructor
  · rintro ⟨k, hk, rfl⟩
    rw [List.mem_range] at hk
    exact ⟨q.head + k, ⟨Nat.le_add_right _ _, by omega⟩, rfl⟩
  · rintro ⟨i, ⟨hlow, hhigh⟩, rfl⟩
    exact ⟨i - q.head, List.mem_range.mpr (by omega), by rw [Nat.add_sub_cancel' hlow]⟩

/-- Queues with the same ends that show the same under a view. -/
theorem map_entries_congr {β : Type*} {view : α → β} (hhead : q'.head = q.head)
    (hsize : q'.size = q.size) (h : ∀ i, q.IsValidIdx i → view (q'.get i) = view (q.get i)) :
    q'.entries.map view = q.entries.map view := by
  rw [entries, entries, List.map_map, List.map_map, hhead, hsize]
  refine List.map_congr_left fun k hk => ?_
  rw [List.mem_range] at hk
  exact h _ ⟨Nat.le_add_right _ _, by omega⟩

/-- Entries that increase from index to index are a sorted list. -/
theorem map_entries_sorted {β : Type*} [LT β] [Inhabited β] {f : α → Option β}
    (hnamed : ∀ i, q.IsValidIdx i → ∃ b, f (q.get i) = some b)
    (hsorted : ∀ i j b c, q.IsValidIdx i → q.IsValidIdx j → f (q.get i) = some b →
      f (q.get j) = some c → i < j → b < c) :
    ∃ bs : List β, q.entries.map f = bs.map some ∧ bs.Pairwise (· < ·) := by
  have hvalid : ∀ k ∈ List.range q.size, q.IsValidIdx (q.head + k) := fun k hk =>
    ⟨Nat.le_add_right _ _, Nat.add_lt_add_left (List.mem_range.mp hk) _⟩
  have hget : ∀ k ∈ List.range q.size,
      f (q.get (q.head + k)) = some ((f (q.get (q.head + k))).getD default) := by
    intro k hk
    obtain ⟨b, hb⟩ := hnamed _ (hvalid k hk)
    rw [hb]
    rfl
  refine ⟨(List.range q.size).map fun k => (f (q.get (q.head + k))).getD default, ?_, ?_⟩
  · rw [entries, List.map_map, List.map_map]
    exact List.map_congr_left hget
  · rw [List.pairwise_map]
    refine List.pairwise_lt_range.imp_of_mem fun {k l} hk hl hlt => ?_
    exact hsorted _ _ _ _ (hvalid k hk) (hvalid l hl) (hget k hk) (hget l hl)
      (Nat.add_lt_add_left hlt _)

/-- Writing a live entry. -/
theorem entries_set (hq : q.Fits) {i : ℕ} (hi : q.IsValidIdx i) (x : α) :
    (q.set i x).entries = q.entries.set (i - q.head) x := by
  refine List.ext_getElem? fun k => ?_
  obtain ⟨hlow, hhigh⟩ := hi
  rw [List.getElem?_set, length_entries]
  by_cases hk : k < q.size
  · rw [getElem?_entries (show k < (q.set i x).size from hk), set_head]
    split_ifs with heq
    · rw [show q.head + k = i by omega, get_set_self]
    · omega
    · rw [getElem?_entries hk,
        get_set_of_ne hq ⟨hlow, hhigh⟩ ⟨Nat.le_add_right _ _, by omega⟩ (by omega)]
  · rw [if_neg (by omega), List.getElem?_eq_none (by rw [length_entries]; exact not_lt.mp hk),
      List.getElem?_eq_none (by rw [length_entries]; exact not_lt.mp hk)]

/-- A new last entry. -/
theorem entries_grow (hq : q.Fits) (hfull : q.full = false) (x : α) :
    (q.advanceTail.set q.advanceTail.tail x).entries = q.entries ++ [x] := by
  have hfits := fits_advanceTail hq hfull
  have hpos := hq.head_pos
  rw [advanceTail_of_not_full hfull] at hfits ⊢
  have htail : ({ q with size := q.size + 1 } : CircularQueue α).tail = q.head + q.size := by
    unfold tail
    dsimp only
    omega
  have hvalid : ({ q with size := q.size + 1 } : CircularQueue α).IsValidIdx (q.head + q.size) :=
    ⟨Nat.le_add_right _ _, by dsimp only; omega⟩
  rw [htail, entries_set hfits hvalid]
  refine List.ext_getElem? fun k => ?_
  rw [List.getElem?_set, length_entries]
  dsimp only
  rcases Nat.lt_trichotomy k q.size with hlt | rfl | hgt
  · rw [if_neg (by omega), List.getElem?_append_left (by rw [length_entries]; exact hlt),
      getElem?_entries (show k < q.size + 1 by omega), getElem?_entries hlt]
    rfl
  · rw [if_pos (by omega), if_pos (by omega), List.getElem?_append_right (by rw [length_entries]),
      length_entries, Nat.sub_self]
    rfl
  · rw [if_neg (by omega), List.getElem?_eq_none (by rw [length_entries]; dsimp only; omega),
      List.getElem?_eq_none]
    rw [List.length_append, length_entries, List.length_singleton]
    omega

/-- The oldest entry leaves. -/
theorem entries_popFront (h : q.popFront = some q') : q'.entries = q.entries.tail := by
  obtain ⟨hsize, rfl⟩ := popFront_eq_some h
  refine List.ext_getElem? fun k => ?_
  rw [List.getElem?_tail]
  by_cases hk : k + 1 < q.size
  · rw [getElem?_entries hk, getElem?_entries (by dsimp only; omega)]
    dsimp only
    rw [Nat.add_assoc, Nat.add_comm 1]
    rfl
  · rw [List.getElem?_eq_none (by rw [length_entries]; dsimp only; omega),
      List.getElem?_eq_none (by rw [length_entries]; omega)]

/-- The youngest entry leaves. -/
theorem entries_popBack (h : q.popBack = some q') : q'.entries = q.entries.dropLast := by
  obtain ⟨hsize, rfl⟩ := popBack_eq_some h
  refine List.ext_getElem? fun k => ?_
  rw [List.getElem?_dropLast, length_entries]
  split_ifs with hk
  · rw [getElem?_entries (by dsimp only; omega), getElem?_entries (by omega)]
    rfl
  · rw [List.getElem?_eq_none (by rw [length_entries]; dsimp only; omega)]

/-! ## Entries that are cleared when they leave -/

/-- The oldest entry is cleared and leaves; the others stay. -/
theorem get_clearFront (hq : q.Fits) {x : α} (h : (q.set q.head x).popFront = some q') :
    1 ≤ q.size ∧ q'.head = q.head + 1 ∧ q'.size = q.size - 1 ∧ q'.capacity = q.capacity ∧
      ∀ i, q'.IsValidIdx i → q.IsValidIdx i ∧ q'.get i = q.get i := by
  obtain ⟨hsize, rfl⟩ := popFront_eq_some h
  have hsize' : 1 ≤ q.size := hsize
  refine ⟨hsize, rfl, rfl, rfl, fun i hi => ?_⟩
  have hlow : q.head + 1 ≤ i := hi.1
  have hhigh : i < q.head + 1 + (q.size - 1) := hi.2
  have hvalid : q.IsValidIdx i := ⟨by omega, by omega⟩
  exact ⟨hvalid, get_set_of_ne hq ⟨le_rfl, by omega⟩ hvalid (by omega) x⟩

/-- What the slots hold after the oldest entry was cleared. -/
theorem slots_clearFront {x : α} (h : (q.set q.head x).popFront = some q') (i : ℕ) :
    q'.get i = q.get i ∨ q'.get i = x := by
  obtain ⟨-, rfl⟩ := popFront_eq_some h
  rcases get_set_cases q q.head i x with hi | ⟨-, hi⟩
  · exact .inl hi
  · exact .inr hi

theorem entries_clearFront (hq : q.Fits) {x : α} (h : (q.set q.head x).popFront = some q') :
    q'.entries = q.entries.tail := by
  obtain ⟨hsize, -⟩ := popFront_eq_some h
  have hsize' : 1 ≤ q.size := hsize
  rw [entries_popFront h, entries_set hq ⟨le_rfl, by omega⟩, Nat.sub_self]
  cases q.entries <;> rfl

/-- The youngest entry is cleared and leaves; the others stay. -/
theorem get_clearBack (hq : q.Fits) {x : α} (h : (q.set q.tail x).popBack = some q') :
    1 ≤ q.size ∧ q'.head = q.head ∧ q'.size = q.size - 1 ∧ q'.capacity = q.capacity ∧
      ∀ i, q'.IsValidIdx i → q.IsValidIdx i ∧ i ≠ q.tail ∧ q'.get i = q.get i := by
  obtain ⟨hsize, rfl⟩ := popBack_eq_some h
  have hsize' : 1 ≤ q.size := hsize
  have hpos := hq.head_pos
  have htail : q.tail = q.head + q.size - 1 := rfl
  refine ⟨hsize, rfl, rfl, rfl, fun i hi => ?_⟩
  have hlow : q.head ≤ i := hi.1
  have hhigh : i < q.head + (q.size - 1) := hi.2
  have hvalid : q.IsValidIdx i := ⟨by omega, by omega⟩
  exact ⟨hvalid, by omega, get_set_of_ne hq ⟨by omega, by omega⟩ hvalid (by omega) x⟩

/-- What the slots hold after the youngest entry was cleared. -/
theorem slots_clearBack {x : α} (h : (q.set q.tail x).popBack = some q') (i : ℕ) :
    q'.get i = q.get i ∨ q'.get i = x := by
  obtain ⟨-, rfl⟩ := popBack_eq_some h
  rcases get_set_cases q q.tail i x with hi | ⟨-, hi⟩
  · exact .inl hi
  · exact .inr hi

theorem entries_clearBack (hq : q.Fits) {x : α} (h : (q.set q.tail x).popBack = some q') :
    q'.entries = q.entries.dropLast := by
  obtain ⟨hsize, -⟩ := popBack_eq_some h
  have hsize' : 1 ≤ q.size := hsize
  have hpos := hq.head_pos
  have htail : q.tail = q.head + q.size - 1 := rfl
  rw [entries_popBack h, entries_set hq ⟨by omega, by omega⟩]
  refine List.ext_getElem? fun k => ?_
  rw [List.getElem?_dropLast, List.getElem?_dropLast, List.length_set, length_entries]
  split_ifs with hk
  · rw [List.getElem?_set_ne (by omega)]
  · rfl

/-! ## Counting entries -/

/-- How many live entries satisfy `p`. -/
def count (p : α → Bool) (q : CircularQueue α) : ℕ := q.entries.countP p

/-- Queues with the same ends that show the same under a view have the same counts of what the view
shows. -/
theorem count_congr {β : Type*} {view : α → β} (p : β → Bool)
    (h : q'.entries.map view = q.entries.map view) :
    q'.count (p ∘ view) = q.count (p ∘ view) := by
  unfold count
  rw [← List.countP_map, ← List.countP_map, h]

/-- Writing a live entry. -/
theorem count_set (p : α → Bool) (hq : q.Fits) {i : ℕ} (hi : q.IsValidIdx i) (x : α) :
    (q.set i x).count p + (p (q.get i)).toNat = q.count p + (p x).toNat := by
  have hlt : i - q.head < q.entries.length := by
    obtain ⟨hlow, hhigh⟩ := hi
    rw [length_entries]
    omega
  have hget : q.entries[i - q.head] = q.get i := by
    have := getElem?_entries_sub hi
    rw [List.getElem?_eq_getElem hlt] at this
    exact Option.some.inj this
  have hpos : (p (q.get i)).toNat ≤ q.entries.countP p := by
    cases hp : p (q.get i) with
    | false => exact Nat.zero_le _
    | true =>
      have hmem : q.get i ∈ q.entries := mem_entries.mpr ⟨i, hi, rfl⟩
      exact List.countP_pos_iff.mpr ⟨_, hmem, hp⟩
  have hbit : ∀ b : Bool, (if b = true then 1 else 0) = b.toNat := by decide
  unfold count
  rw [entries_set hq hi, List.countP_set hlt, hget, hbit, hbit]
  omega

/-- A new last entry. -/
theorem count_grow (p : α → Bool) (hq : q.Fits) (hfull : q.full = false) (x : α) :
    (q.advanceTail.set q.advanceTail.tail x).count p = q.count p + (p x).toNat := by
  unfold count
  rw [entries_grow hq hfull, List.countP_append]
  cases hp : p x <;> simp [hp]

/-- The oldest entry is cleared and leaves. -/
theorem count_clearFront (p : α → Bool) (hq : q.Fits) {x : α}
    (h : (q.set q.head x).popFront = some q') :
    q'.count p + (p (q.get q.head)).toNat = q.count p := by
  obtain ⟨hsize, -⟩ := get_clearFront hq h
  have hfirst := getElem?_entries (q := q) (show 0 < q.size from hsize)
  unfold count
  rw [entries_clearFront hq h]
  cases hentries : q.entries with
  | nil =>
    rw [hentries] at hfirst
    cases hfirst
  | cons y ys =>
    rw [hentries] at hfirst
    obtain rfl : y = q.get q.head := Option.some.inj hfirst
    rw [List.tail_cons, List.countP_cons]
    cases p (q.get q.head) <;> rfl

/-- The youngest entry is cleared and leaves. -/
theorem count_clearBack (p : α → Bool) (hq : q.Fits) {x : α}
    (h : (q.set q.tail x).popBack = some q') :
    q'.count p + (p (q.get q.tail)).toNat = q.count p := by
  obtain ⟨hsize, -⟩ := get_clearBack hq h
  have hpos := hq.head_pos
  have hlast : q.entries.getLast? = some (q.get q.tail) := by
    rw [List.getLast?_eq_getElem?, length_entries, getElem?_entries (by omega)]
    unfold tail
    rw [Nat.add_sub_assoc hsize]
  obtain ⟨ys, hys⟩ := List.getLast?_eq_some_iff.mp hlast
  unfold count
  rw [entries_clearBack hq h, hys, List.dropLast_concat, List.countP_append]
  cases hp : p (q.get q.tail) <;> simp [hp]

/-- A live entry that is counted. -/
theorem count_pos {p : α → Bool} {i : ℕ} (hi : q.IsValidIdx i) (hp : p (q.get i) = true) :
    0 < q.count p :=
  List.countP_pos_iff.mpr ⟨q.get i, mem_entries.mpr ⟨i, hi, rfl⟩, hp⟩

end CircularQueue
