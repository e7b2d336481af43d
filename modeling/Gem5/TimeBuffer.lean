/-
# Time buffers

Embedding of `cpu/timebuf.hh`.  A `TimeBuffer` is the delay line between two stages of the
pipeline: a ring of slots, addressed relative to now.  A stage writes the slot at `0` or later,
the receiving stage reads the slot at minus its delay, and once a cycle `advance` moves now by
one and clears the slot that comes into view at the far end.

Two buffers that a reader cannot tell apart stay so under the same writes (`Agree.cycles`), and
with no further writes a slot reaches the reader after as many cycles as its distance from it
(`access_idle`).  As many advances as there are slots leave nothing (`access_flush`).
-/
import Gem5.Runs

namespace Gem5

/-- `TimeBuffer<T>`.  The slots are the ring `index`; the slot for now is the one at `base`. -/
structure TimeBuffer (T : Type*) where
  past : ℕ
  future : ℕ
  base : ℕ
  slots : List T
  length_slots : slots.length = past + future + 1
  base_lt : base < past + future + 1
  deriving DecidableEq

namespace TimeBuffer

variable {T : Type*}

/-- `getSize()` -/
def size (b : TimeBuffer T) : ℕ := b.past + b.future + 1

/-- `++base`, around the ring. -/
def nextBase (b : TimeBuffer T) : ℕ := if b.base + 1 ≥ b.size then 0 else b.base + 1

theorem nextBase_lt (b : TimeBuffer T) : b.nextBase < b.past + b.future + 1 := by
  have := b.base_lt
  unfold nextBase size
  split_ifs <;> omega

/-- The slot that `advance` clears. -/
def clearedSlot (b : TimeBuffer T) : ℕ :=
  if b.nextBase + b.future ≥ b.size then b.nextBase + b.future - b.size
  else b.nextBase + b.future

/-- `advance()` -/
def advance [Inhabited T] (b : TimeBuffer T) : TimeBuffer T :=
  { b with
    base := b.nextBase
    slots := b.slots.set b.clearedSlot default
    length_slots := (List.length_set ..).trans b.length_slots
    base_lt := b.nextBase_lt }

/-- `calculateVectorIndex(idx)`, with its assertion that the index is in the buffer. -/
def calculateVectorIndex (b : TimeBuffer T) (idx : ℤ) : Option ℕ :=
  if -(b.past : ℤ) ≤ idx ∧ idx ≤ b.future then
    let v := idx + b.base
    some (if v ≥ b.size then v - b.size else if v < 0 then v + b.size else v).toNat
  else none

/-- `access(idx)` -/
def access (b : TimeBuffer T) (idx : ℤ) : Option T :=
  (b.calculateVectorIndex idx).bind fun i => b.slots[i]?

/-- A write to the slot at `idx`, through a wire or the index operator. -/
def modify (b : TimeBuffer T) (idx : ℤ) (f : T → T) : TimeBuffer T :=
  match b.calculateVectorIndex idx with
  | some i =>
      { b with
        slots := b.slots.modify i f
        length_slots := (List.length_modify ..).trans b.length_slots }
  | none => b

/-- `TimeBuffer(p, f)` -/
def new [Inhabited T] (p f : ℕ) : TimeBuffer T where
  past := p
  future := f
  base := 0
  slots := List.replicate (p + f + 1) default
  length_slots := List.length_replicate
  base_lt := Nat.succ_pos _

/-! ## The slots relative to now -/

/-- An index inside the buffer. -/
def Valid (b : TimeBuffer T) (i : ℤ) : Prop := -(b.past : ℤ) ≤ i ∧ i ≤ b.future

theorem calculateVectorIndex_of_valid {b : TimeBuffer T} {i : ℤ} (hi : b.Valid i) :
    ∃ k, b.calculateVectorIndex i = some k ∧ k < b.size ∧
      ((k : ℤ) = i + b.base ∨ (k : ℤ) = i + b.base - b.size ∨ (k : ℤ) = i + b.base + b.size) := by
  have hbase := b.base_lt
  obtain ⟨hlow, hhigh⟩ := hi
  refine ⟨_, if_pos ⟨hlow, hhigh⟩, ?_, ?_⟩
  all_goals
    unfold size
    split_ifs <;> omega

theorem access_eq {b : TimeBuffer T} {i : ℤ} {k : ℕ} (h : b.calculateVectorIndex i = some k) :
    b.access i = b.slots[k]? := by
  unfold access
  rw [h]
  rfl

/-- Two indices inside the buffer that share a slot are the same. -/
theorem index_unique {b : TimeBuffer T} {i j : ℤ} (hi : b.Valid i) (hj : b.Valid j) {k : ℕ}
    (hik : b.calculateVectorIndex i = some k) (hjk : b.calculateVectorIndex j = some k) :
    i = j := by
  obtain ⟨k₁, hk₁, -, h₁⟩ := calculateVectorIndex_of_valid hi
  obtain ⟨k₂, hk₂, -, h₂⟩ := calculateVectorIndex_of_valid hj
  obtain rfl := Option.some.inj (hik.symm.trans hk₁)
  obtain rfl := Option.some.inj (hjk.symm.trans hk₂)
  obtain ⟨hilow, hihigh⟩ := hi
  obtain ⟨hjlow, hjhigh⟩ := hj
  unfold size at h₁ h₂
  omega

theorem access_isSome {b : TimeBuffer T} {i : ℤ} (hi : b.Valid i) : ∃ v, b.access i = some v := by
  obtain ⟨k, hk, hlt, -⟩ := calculateVectorIndex_of_valid hi
  have hlen : k < b.slots.length := by
    rw [b.length_slots]
    exact hlt
  exact ⟨b.slots[k], (access_eq hk).trans (List.getElem?_eq_getElem hlen)⟩

@[simp] theorem past_modify (b : TimeBuffer T) (j : ℤ) (f : T → T) :
    (b.modify j f).past = b.past := by
  unfold modify
  split <;> rfl

@[simp] theorem future_modify (b : TimeBuffer T) (j : ℤ) (f : T → T) :
    (b.modify j f).future = b.future := by
  unfold modify
  split <;> rfl

/-- A write changes one slot. -/
theorem access_modify {b : TimeBuffer T} {i j : ℤ} (hi : b.Valid i) (hj : b.Valid j) (f : T → T) :
    (b.modify j f).access i = if i = j then (b.access i).map f else b.access i := by
  obtain ⟨k, hk, hlt, -⟩ := calculateVectorIndex_of_valid hi
  obtain ⟨l, hl, -, -⟩ := calculateVectorIndex_of_valid hj
  unfold modify
  simp only [hl]
  show (b.calculateVectorIndex i).bind (fun k => (b.slots.modify l f)[k]?) = _
  rw [access_eq hk, hk, Option.bind_some]
  split_ifs with heq
  · subst heq
    obtain rfl := Option.some.inj (hk.symm.trans hl)
    exact List.getElem?_modify_eq ..
  · refine (List.getElem?_modify_ne f _ fun h => heq ?_)
    subst h
    exact index_unique hi hj hk hl

/-- **Advancing** moves every slot one into the past, and the last one is clear. -/
theorem access_advance [Inhabited T] {b : TimeBuffer T} {i : ℤ} (hi : b.Valid i) :
    b.advance.access i = if i = b.future then some default else b.access (i + 1) := by
  have hi' : b.advance.Valid i := hi
  obtain ⟨k, hk, hlt, hcase⟩ := calculateVectorIndex_of_valid hi'
  have hlt : k < b.size := hlt
  have hcase : (k : ℤ) = i + b.nextBase ∨ (k : ℤ) = i + b.nextBase - b.size ∨
      (k : ℤ) = i + b.nextBase + b.size := hcase
  obtain ⟨hlow, hhigh⟩ := hi
  have hsize : b.size = b.past + b.future + 1 := rfl
  have hb : b.base < b.size := b.base_lt
  have hnb : b.nextBase < b.size := b.nextBase_lt
  have hnext : (b.nextBase : ℤ) = b.base + 1 ∨ (b.nextBase : ℤ) = b.base + 1 - b.size := by
    unfold nextBase
    split_ifs <;> omega
  have hcleared : b.clearedSlot < b.size ∧ ((b.clearedSlot : ℤ) = b.nextBase + b.future ∨
      (b.clearedSlot : ℤ) = b.nextBase + b.future - b.size) := by
    unfold clearedSlot
    split_ifs <;> omega
  rw [access_eq hk]
  show (b.slots.set b.clearedSlot default)[k]? = _
  split_ifs with hlast
  · have hkc : k = b.clearedSlot := by omega
    have hlen : b.clearedSlot < b.slots.length := by
      rw [b.length_slots]
      exact hcleared.1
    rw [hkc]
    exact List.getElem?_set_self hlen
  · have hvalid : b.Valid (i + 1) := by
      unfold Valid
      omega
    obtain ⟨k', hk', hlt', hcase'⟩ := calculateVectorIndex_of_valid hvalid
    have hkk : k' = k := by omega
    rw [access_eq hk', hkk]
    exact List.getElem?_set_ne (by omega)

/-! ## Cycles -/

/-- What a cycle does to a buffer: the sending stages write, then the buffer advances. -/
def cycle [Inhabited T] (b : TimeBuffer T) (ws : List (ℕ × (T → T))) : TimeBuffer T :=
  (ws.foldl (fun b w => b.modify w.1 w.2) b).advance

/-- Two buffers hold the same as far as a reader with delay `d` can ever see, who looks at the
slots through `π`. -/
structure Agree {M : Type*} (π : T → M) (d : ℕ) (b b' : TimeBuffer T) : Prop where
  past : b'.past = b.past
  future : b'.future = b.future
  delay : d ≤ b.past
  slots : ∀ i : ℤ, -(d : ℤ) ≤ i → i ≤ b.future → (b'.access i).map π = (b.access i).map π

section Agree

variable {M : Type*} {π : T → M} {d : ℕ} {b b' : TimeBuffer T}

theorem Agree.modify (h : Agree π d b b') {f : T → T} (hf : ∀ x y, π x = π y → π (f x) = π (f y))
    (j : ℕ) : Agree π d (b.modify j f) (b'.modify j f) := by
  refine ⟨by simpa using h.past, by simpa using h.future, by simpa using h.delay, ?_⟩
  intro i hlow hhigh
  rw [future_modify] at hhigh
  have hpast := h.past
  have hfuture := h.future
  have hdelay := h.delay
  by_cases hj : (j : ℤ) ≤ b.future
  · have hvj : b.Valid j := by unfold Valid; omega
    have hvj' : b'.Valid j := by unfold Valid; omega
    have hvi : b.Valid i := by unfold Valid; omega
    have hvi' : b'.Valid i := by unfold Valid; omega
    have hslots := h.slots i hlow hhigh
    obtain ⟨v, hv⟩ := access_isSome hvi
    obtain ⟨v', hv'⟩ := access_isSome hvi'
    rw [access_modify hvi' hvj', access_modify hvi hvj]
    rw [hv, hv', Option.map_some, Option.map_some, Option.some.injEq] at hslots
    rw [hv, hv']
    split_ifs
    · rw [Option.map_some, Option.map_some, Option.map_some, Option.map_some, hf _ _ hslots]
    · rw [Option.map_some, Option.map_some, hslots]
  · have hout : ∀ c : TimeBuffer T, c.future = b.future → c.modify j f = c := by
      intro c hc
      unfold TimeBuffer.modify calculateVectorIndex
      rw [if_neg (by omega)]
    rw [hout b rfl, hout b' h.future]
    exact h.slots i hlow hhigh

theorem Agree.advance [Inhabited T] (h : Agree π d b b') : Agree π d b.advance b'.advance := by
  refine ⟨h.past, h.future, h.delay, ?_⟩
  intro i hlow hhigh
  have hhigh : i ≤ b.future := hhigh
  have hpast := h.past
  have hfuture := h.future
  have hdelay := h.delay
  have hvi : b.Valid i := by unfold Valid; omega
  have hvi' : b'.Valid i := by unfold Valid; omega
  rw [access_advance hvi, access_advance hvi', h.future]
  split_ifs with hlast
  · rfl
  · exact h.slots (i + 1) (by omega) (by omega)

/-- **The same writes** keep what a reader sees the same, when what it sees of a slot after a
write depends on what it saw before. -/
theorem Agree.cycle [Inhabited T] (h : Agree π d b b') {ws : List (ℕ × (T → T))}
    (hws : ∀ w ∈ ws, ∀ x y, π x = π y → π (w.2 x) = π (w.2 y)) :
    Agree π d (b.cycle ws) (b'.cycle ws) := by
  refine Agree.advance ?_
  induction ws generalizing b b' with
  | nil => exact h
  | cons w ws ih =>
    exact ih (h.modify (hws w List.mem_cons_self) w.1) fun w' hw' =>
      hws w' (List.mem_cons_of_mem w hw')

theorem Agree.read (h : Agree π d b b') :
    (b'.access (-d)).map π = (b.access (-d)).map π :=
  h.slots _ le_rfl (by omega)

end Agree

/-! ## Flushing -/

/-- The loop that advances a buffer a number of times. -/
def flush [Inhabited T] (b : TimeBuffer T) : ℕ → TimeBuffer T
  | 0 => b
  | k + 1 => b.advance.flush k

/-- A cycle in which nothing changes is an advance. -/
theorem cycle_of_forall_id [Inhabited T] (b : TimeBuffer T) {ws : List (ℕ × (T → T))}
    (hws : ∀ w ∈ ws, w.2 = id) : b.cycle ws = b.advance := by
  have hmodify : ∀ j : ℕ, b.modify j id = b := by
    intro j
    unfold modify
    split
    · congr 1
      exact List.modify_id ..
    · rfl
  unfold cycle
  congr 1
  induction ws with
  | nil => rfl
  | cons w ws ih =>
    rw [List.foldl_cons, hws w List.mem_cons_self, hmodify]
    exact ih fun w' hw' => hws w' (List.mem_cons_of_mem w hw')

theorem shape_flush [Inhabited T] (b : TimeBuffer T) (k : ℕ) :
    (b.flush k).past = b.past ∧ (b.flush k).future = b.future := by
  induction k generalizing b with
  | zero => exact ⟨rfl, rfl⟩
  | succ k ih => exact ih b.advance

/-- After `k` advances the last `k` slots are clear. -/
theorem access_flush_of_lt [Inhabited T] (b : TimeBuffer T) (k : ℕ) {i : ℤ} (hi : b.Valid i) :
    (b.flush k).access i = if (b.future : ℤ) < i + k then some default else b.access (i + k) := by
  induction k generalizing b i with
  | zero =>
    have hhigh := hi.2
    rw [if_neg (by omega)]
    simp [flush]
  | succ k ih =>
    unfold flush
    have hfuture : b.advance.future = b.future := rfl
    rw [ih b.advance hi, hfuture]
    by_cases hlt : (b.future : ℤ) < i + k
    · rw [if_pos hlt, if_pos (by omega)]
    · have hvalid : b.Valid (i + k) := by
        have := hi.1
        unfold Valid
        omega
      rw [if_neg hlt, access_advance hvalid]
      by_cases heq : i + k = b.future
      · rw [if_pos heq, if_pos (by omega)]
      · rw [if_neg heq, if_neg (by omega)]
        congr 1
        omega

/-- **Flushing** with as many advances as there are slots clears the buffer. -/
theorem access_flush [Inhabited T] (b : TimeBuffer T) {i : ℤ} (hi : b.Valid i) {k : ℕ}
    (hk : b.size ≤ k) : (b.flush k).access i = some default := by
  have hlow := hi.1
  unfold size at hk
  rw [access_flush_of_lt b k hi, if_pos (by omega)]

/-- **With no further writes** a slot reaches the reader after as many cycles as its distance. -/
theorem access_idle [Inhabited T] (b : TimeBuffer T) (d : ℕ) (hd : d ≤ b.past) {i : ℤ}
    (hlow : -(d : ℤ) ≤ i) (hhigh : i ≤ b.future) :
    (b.flush (i + d).toNat).access (-d) = b.access i := by
  have hvalid : b.Valid (-d) := by
    unfold Valid
    omega
  rw [access_flush_of_lt b _ hvalid, if_neg (by omega)]
  congr 1
  omega

end TimeBuffer

end Gem5
