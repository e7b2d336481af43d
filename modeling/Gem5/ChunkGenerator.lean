/-
# Splitting a region of memory into chunks

`ChunkGenerator` (`base/chunk_generator.hh`) walks over a region of memory in pieces that do not
cross a chunk boundary; `setNext` moves it past bytes that were handled in another way.  Addresses
and sizes are 64-bit values and wrap.

The proofs follow the generator at unbounded positions: `At p q n` says that the current chunk is
`[p, q)` and that the next one is to have `n` bytes.
-/
import Gem5.Runs

namespace Gem5

open Runs

/-! ## Rounding up -/

/-- `roundUp` of `base/intmath.hh` on 64-bit values. -/
def roundUp (val align : ℕ) : ℕ := (val + (align - 1)) % 2 ^ 64 / align * align

/-- The first chunk boundary behind `p`. -/
def boundary (chunkSize p : ℕ) : ℕ := (p / chunkSize + 1) * chunkSize

theorem lt_boundary {cs : ℕ} (hcs : 0 < cs) (p : ℕ) : p < boundary cs p := by
  rw [boundary, Nat.mul_comm]
  exact Nat.lt_mul_div_succ p hcs

theorem boundary_le_add (cs p : ℕ) : boundary cs p ≤ p + cs := by
  rw [boundary, Nat.add_mul, Nat.one_mul]
  exact Nat.add_le_add_right (Nat.div_mul_le_self p cs) cs

theorem boundary_mod (cs p : ℕ) : boundary cs p % cs = 0 := Nat.mul_mod_left _ _

theorem boundary_sub (cs p : ℕ) : boundary cs p - p = cs - p % cs := by
  have h := Nat.div_add_mod p cs
  rw [boundary, Nat.add_mul, Nat.one_mul, Nat.mul_comm]
  omega

/-- Behind a boundary the next one is a chunk away. -/
theorem boundary_of_aligned {cs p : ℕ} (h : p % cs = 0) : boundary cs p = p + cs := by
  rw [boundary, Nat.add_mul, Nat.one_mul, Nat.div_mul_cancel (Nat.dvd_of_mod_eq_zero h)]

/-- A boundary is behind every address of the chunk that it ends. -/
theorem boundary_le_of_aligned {cs p r : ℕ} (hp : p < r) (h : r % cs = 0) : boundary cs p ≤ r := by
  obtain ⟨m, rfl⟩ := Nat.dvd_of_mod_eq_zero h
  rw [boundary, Nat.mul_comm cs m]
  exact Nat.mul_le_mul_right cs (Nat.div_lt_of_lt_mul hp)

/-- The chunks of an address space of 64 bits fill it. -/
theorem boundary_le_space {k p : ℕ} (hk : k ≤ 64) (hp : p < 2 ^ 64) :
    boundary (2 ^ k) p ≤ 2 ^ 64 := by
  refine boundary_le_of_aligned hp (Nat.mod_eq_zero_of_dvd ?_)
  exact pow_dvd_pow 2 hk

theorem roundUp_of_aligned {k val : ℕ} (hk : k ≤ 64) (hval : val < 2 ^ 64)
    (h : val % 2 ^ k = 0) : roundUp val (2 ^ k) = val := by
  have hpos : 0 < 2 ^ k := Nat.two_pow_pos k
  have hspace := boundary_le_space hk hval
  rw [boundary_of_aligned h] at hspace
  rw [roundUp, Nat.mod_eq_of_lt (by omega)]
  obtain ⟨m, rfl⟩ := Nat.dvd_of_mod_eq_zero h
  rw [Nat.mul_add_div hpos, Nat.div_eq_of_lt (by omega), Nat.add_zero, Nat.mul_comm]

theorem roundUp_of_unaligned {k val : ℕ} (hk : k ≤ 64) (hval : val < 2 ^ 64)
    (h : val % 2 ^ k ≠ 0) : roundUp val (2 ^ k) = boundary (2 ^ k) val % 2 ^ 64 := by
  have hpos : 0 < 2 ^ k := Nat.two_pow_pos k
  have hspace := boundary_le_space hk hval
  have hdiv : (2 ^ k) * (val / 2 ^ k) + val % 2 ^ k = val := Nat.div_add_mod val (2 ^ k)
  have hmod := Nat.mod_lt val hpos
  have hb : boundary (2 ^ k) val = (2 ^ k) * (val / 2 ^ k) + 2 ^ k := by
    rw [boundary, Nat.add_mul, Nat.one_mul, Nat.mul_comm]
  have hsum : val + (2 ^ k - 1) = boundary (2 ^ k) val + (val % 2 ^ k - 1) := by omega
  rw [roundUp, hsum]
  rcases hspace.lt_or_eq with hlt | heq
  · have hnowrap : boundary (2 ^ k) val + (val % 2 ^ k - 1) < 2 ^ 64 := by
      have hdvd : 2 ^ k ∣ 2 ^ 64 := pow_dvd_pow 2 hk
      have hnext := boundary_le_space hk hlt
      rw [boundary_of_aligned (boundary_mod _ _)] at hnext
      omega
    have hsmall : val % 2 ^ k - 1 < 2 ^ k := (Nat.sub_le _ _).trans_lt hmod
    rw [Nat.mod_eq_of_lt hnowrap, Nat.mod_eq_of_lt hlt, boundary,
      Nat.mul_comm (val / 2 ^ k + 1), Nat.mul_add_div hpos, Nat.div_eq_of_lt hsmall,
      Nat.add_zero, Nat.mul_comm]
  · rw [heq, Nat.mod_self, Nat.add_mod_left, Nat.mod_eq_of_lt (by omega),
      Nat.div_eq_of_lt (by omega), Nat.zero_mul]

/-! ## The generator -/

/-- The assertions of the generator. -/
inductive ChunkFault
  | notPowerOf2
  | nextTooLow
  | noChunkSize
  deriving DecidableEq, Repr

structure ChunkGenerator where
  curAddr : ℕ
  nextAddr : ℕ
  curSize : ℕ
  nextSize : ℕ
  sizeLeft : ℕ
  startAddr : ℕ
  chunkSize : ℕ
  deriving DecidableEq, Repr

/-- The difference of two 64-bit values. -/
def sub64 (a b : ℕ) : ℕ := (a + 2 ^ 64 - b) % 2 ^ 64

/-- The sum of two 64-bit values. -/
def add64 (a b : ℕ) : ℕ := (a + b) % 2 ^ 64

def isPowerOf2 (n : ℕ) : Bool := n ≠ 0 && n &&& (n - 1) == 0

namespace ChunkGenerator

/-- The end of the first chunk, as the constructor computes it. -/
def firstNext (startAddr totalSize chunkSize : ℕ) : ℕ :=
  if chunkSize = 0 then add64 startAddr totalSize
  else
    let rounded := roundUp startAddr chunkSize
    let nextAddr := if startAddr = rounded then add64 rounded chunkSize else rounded
    min nextAddr (add64 startAddr totalSize)

/-- The constructor. -/
def create (startAddr totalSize chunkSize : ℕ) : Except ChunkFault ChunkGenerator := do
  require .notPowerOf2 (chunkSize = 0 ∨ isPowerOf2 chunkSize)
  let nextAddr := firstNext startAddr totalSize chunkSize
  let curSize := sub64 nextAddr startAddr
  let sizeLeft := sub64 totalSize curSize
  return {
    curAddr := startAddr
    nextAddr := nextAddr
    curSize := curSize
    nextSize := min sizeLeft chunkSize
    sizeLeft := sizeLeft
    startAddr := startAddr
    chunkSize := chunkSize }

def addr (g : ChunkGenerator) : ℕ := g.curAddr

def size (g : ChunkGenerator) : ℕ := g.curSize

def complete (g : ChunkGenerator) : ℕ := sub64 g.curAddr g.startAddr

def done (g : ChunkGenerator) : Bool := g.curSize == 0

def last (g : ChunkGenerator) : Bool := g.sizeLeft == 0

def setNext (g : ChunkGenerator) (next : ℕ) : Except ChunkFault ChunkGenerator := do
  require .nextTooLow (next ≥ g.nextAddr)
  let skipping := min (next - g.nextAddr) g.sizeLeft
  let sizeLeft := g.sizeLeft - skipping
  require .noChunkSize (g.chunkSize ≠ 0)
  let nextSize := sub64 (roundUp next g.chunkSize) next
  return { g with
    sizeLeft := sizeLeft
    curSize := add64 g.curSize skipping
    nextAddr := next
    nextSize := if nextSize = 0 then min sizeLeft g.chunkSize else nextSize }

def next (g : ChunkGenerator) : Bool × ChunkGenerator :=
  if g.last then (false, { g with curSize := 0 })
  else
    let sizeLeft := sub64 g.sizeLeft g.nextSize
    (true,
      { g with
        curAddr := g.nextAddr
        curSize := g.nextSize
        sizeLeft := sizeLeft
        nextAddr := add64 g.nextAddr g.nextSize
        nextSize := min sizeLeft g.chunkSize })

/-! ## The generator at a position -/

/-- The current chunk is `[p, q)` of the region `[first, last)`, and the next one has `n` bytes. -/
structure At (first last p q n : ℕ) (g : ChunkGenerator) : Prop where
  startAddr : g.startAddr = first
  curAddr : g.curAddr = p % 2 ^ 64
  nextAddr : g.nextAddr = q % 2 ^ 64
  curSize : g.curSize = q - p
  sizeLeft : g.sizeLeft = last - q
  nextSize : g.nextSize = n

/-- Where the first chunk of a region ends: at the chunk boundary or at the end of the region,
except that an end from `2 ^ 64` on is not seen before the address space ends. -/
def firstEnd (chunkSize first last : ℕ) : ℕ :=
  if boundary chunkSize first = 2 ^ 64 then 2 ^ 64
  else if last < 2 ^ 64 then min (boundary chunkSize first) last
  else last

/-- The first chunk of the region is computed correctly: it does not end with the address space, or
the region does not end before. -/
def Regular (chunkSize first last : ℕ) : Prop :=
  boundary chunkSize first = 2 ^ 64 → 2 ^ 64 ≤ last

instance (chunkSize first last : ℕ) : Decidable (Regular chunkSize first last) :=
  inferInstanceAs (Decidable (_ → _))

theorem isPowerOf2_two_pow (k : ℕ) : isPowerOf2 (2 ^ k) = true := by
  have hne : (2 : ℕ) ^ k ≠ 0 := (Nat.two_pow_pos k).ne'
  simp [isPowerOf2, Nat.and_two_pow_sub_one_eq_mod]

variable {k first last : ℕ} {g : ChunkGenerator}

theorem firstNext_eq {size : ℕ} (hk : k ≤ 64) (hfirst : first < 2 ^ 64) :
    firstNext first size (2 ^ k) =
      min (boundary (2 ^ k) first % 2 ^ 64) ((first + size) % 2 ^ 64) := by
  have hne : (2 : ℕ) ^ k ≠ 0 := (Nat.two_pow_pos k).ne'
  rw [firstNext, if_neg hne]
  simp only [add64]
  congr 1
  by_cases h : first % 2 ^ k = 0
  · rw [roundUp_of_aligned hk hfirst h, if_pos rfl, boundary_of_aligned h]
  · have hup := roundUp_of_unaligned hk hfirst h
    rw [if_neg fun heq => ?_, hup]
    -- a rounded address is aligned
    apply h
    rw [heq, roundUp]
    exact Nat.mul_mod_left _ _

theorem lt_firstEnd (hfirst : first < 2 ^ 64) (hlt : first < last) :
    first < firstEnd (2 ^ k) first last := by
  have hbelow := lt_boundary (Nat.two_pow_pos k) first
  rw [firstEnd]
  split
  · exact hfirst
  · split
    · exact lt_min hbelow hlt
    · exact hlt

theorem le_firstEnd (hfirst : first < 2 ^ 64) (hle : first ≤ last) :
    first ≤ firstEnd (2 ^ k) first last := by
  rcases hle.lt_or_eq with hlt | rfl
  · exact (lt_firstEnd hfirst hlt).le
  · have hbelow := lt_boundary (Nat.two_pow_pos k) first
    rw [firstEnd, if_pos hfirst]
    split
    · exact hfirst.le
    · exact le_min hbelow.le le_rfl

/-- **The constructor on a regular region.** -/
theorem create_at {size : ℕ} (hk : k ≤ 64) (hfirst : first < 2 ^ 64) (hsize : size < 2 ^ 63)
    (hreg : Regular (2 ^ k) first (first + size)) :
    ∃ g, create first size (2 ^ k) = .ok g ∧ g.chunkSize = 2 ^ k ∧
      firstEnd (2 ^ k) first (first + size) ≤ first + size ∧
      At first (first + size) first (firstEnd (2 ^ k) first (first + size))
        (min (first + size - firstEnd (2 ^ k) first (first + size)) (2 ^ k)) g := by
  have hspace := boundary_le_space hk hfirst
  have hlt := lt_boundary (Nat.two_pow_pos k) first
  have hle : firstEnd (2 ^ k) first (first + size) ≤ first + size := by
    rw [firstEnd]
    split
    · rename_i h
      exact hreg h
    · split <;> omega
  have hge : first ≤ firstEnd (2 ^ k) first (first + size) :=
    le_firstEnd hfirst (Nat.le_add_right _ _)
  have hnext : firstNext first size (2 ^ k) =
      firstEnd (2 ^ k) first (first + size) % 2 ^ 64 := by
    rw [firstNext_eq hk hfirst, firstEnd]
    by_cases hb : boundary (2 ^ k) first = 2 ^ 64
    · rw [if_pos hb, hb, Nat.mod_self, Nat.zero_min]
    · rw [if_neg hb]
      by_cases hl : first + size < 2 ^ 64
      · rw [if_pos hl, Nat.mod_eq_of_lt hl, Nat.mod_eq_of_lt (by omega : boundary _ _ < _),
          Nat.mod_eq_of_lt (by omega)]
      · rw [if_neg hl]
        omega
  have hcur : sub64 (firstNext first size (2 ^ k)) first =
      firstEnd (2 ^ k) first (first + size) - first := by
    rw [hnext, sub64]
    omega
  have hleft : sub64 size (firstEnd (2 ^ k) first (first + size) - first) =
      first + size - firstEnd (2 ^ k) first (first + size) := by
    rw [sub64]
    omega
  refine ⟨_, bind_eq_ok.mpr ⟨(), require_ok (by simp [isPowerOf2_two_pow]), rfl⟩, rfl, hle, ?_⟩
  exact
    { startAddr := rfl
      curAddr := (Nat.mod_eq_of_lt hfirst).symm
      nextAddr := hnext
      curSize := hcur
      sizeLeft := by dsimp only; rw [hcur, hleft]
      nextSize := by dsimp only; rw [hcur, hleft] }

/-- The generator in the last chunk of the address space, with a current chunk `[pos, 2 ^ 64)` that
reaches beyond the region. -/
structure Beyond (first last pos : ℕ) (g : ChunkGenerator) : Prop where
  startAddr : g.startAddr = first
  curAddr : g.curAddr = pos
  nextAddr : g.nextAddr = 0
  curSize : g.curSize = 2 ^ 64 - pos
  sizeLeft : g.sizeLeft = last

/-- In the last chunk of the address space, a region that ends before it gets a first chunk that
reaches beyond it. -/
theorem create_irregular {size : ℕ} (hk : k < 64) (hfirst : first < 2 ^ 64) (hsize : size < 2 ^ 63)
    (hreg : ¬ Regular (2 ^ k) first (first + size)) :
    ∃ g, create first size (2 ^ k) = .ok g ∧ g.chunkSize = 2 ^ k ∧
      Beyond first (first + size) first g := by
  rw [Regular, Classical.not_imp] at hreg
  obtain ⟨hb, hlast⟩ := hreg
  have hnext : firstNext first size (2 ^ k) = 0 := by
    rw [firstNext_eq hk.le hfirst, hb, Nat.mod_self, Nat.zero_min]
  have hpos : first ≠ 0 := by
    rintro rfl
    rw [boundary, Nat.zero_div, Nat.zero_add, Nat.one_mul] at hb
    exact hk.ne (Nat.pow_right_injective (le_refl 2) hb)
  have hcur : sub64 (firstNext first size (2 ^ k)) first = 2 ^ 64 - first := by
    rw [hnext, sub64]
    omega
  have hleft : sub64 size (2 ^ 64 - first) = first + size := by
    rw [sub64]
    omega
  refine ⟨_, bind_eq_ok.mpr ⟨(), require_ok (by simp [isPowerOf2_two_pow]), rfl⟩, rfl, ?_⟩
  exact
    { startAddr := rfl
      curAddr := rfl
      nextAddr := hnext
      curSize := hcur
      sizeLeft := by dsimp only; rw [hcur, hleft] }

/-- `next` at a position: the last chunk ends the walk, any other gives way to the next one. -/
theorem At.next_last {p n : ℕ} (h : At first last p last n g) :
    g.next = (false, { g with curSize := 0 }) := by
  have hlast : g.last = true := by
    rw [ChunkGenerator.last, h.sizeLeft, Nat.sub_self]
    rfl
  rw [ChunkGenerator.next, if_pos hlast]

theorem At.next_more {p q n : ℕ} (h : At first last p q n g) (hq : q < last) : g.next.1 = true := by
  have hlast : ¬ g.last = true := by
    rw [ChunkGenerator.last, h.sizeLeft, beq_iff_eq]
    omega
  rw [ChunkGenerator.next, if_neg hlast]

theorem At.next_chunk {p q n : ℕ} (h : At first last p q n g) (hq : q < last) (hn : n ≤ last - q)
    (hspace : last - first < 2 ^ 64) (hfirst : first ≤ q) :
    g.next.2.chunkSize = g.chunkSize ∧
      At first last q (q + n) (min (last - (q + n)) g.chunkSize) g.next.2 := by
  have hlast : ¬ g.last = true := by
    rw [ChunkGenerator.last, h.sizeLeft, beq_iff_eq]
    omega
  have hleft : sub64 g.sizeLeft g.nextSize = last - (q + n) := by
    rw [sub64, h.sizeLeft, h.nextSize]
    omega
  rw [ChunkGenerator.next, if_neg hlast]
  refine ⟨rfl, ?_⟩
  exact
    { startAddr := h.startAddr
      curAddr := h.nextAddr
      nextAddr := by
        dsimp only
        rw [add64, h.nextAddr, h.nextSize]
        omega
      curSize := by
        dsimp only
        rw [h.nextSize]
        omega
      sizeLeft := hleft
      nextSize := by
        dsimp only
        rw [hleft] }

/-- The size of the chunk behind `r` that `setNext` computes. -/
def resumed (chunkSize last r : ℕ) : ℕ :=
  if r % chunkSize = 0 then min (last - r) chunkSize else boundary chunkSize r - r

/-- The distance to the next boundary on 64-bit values: none at a boundary. -/
theorem sub_roundUp (hk : k ≤ 64) (r : ℕ) :
    sub64 (roundUp (r % 2 ^ 64) (2 ^ k)) (r % 2 ^ 64) =
      if r % 2 ^ k = 0 then 0 else boundary (2 ^ k) r - r := by
  have hdvd : (2 : ℕ) ^ k ∣ 2 ^ 64 := pow_dvd_pow 2 hk
  have hmod : r % 2 ^ 64 % 2 ^ k = r % 2 ^ k := Nat.mod_mod_of_dvd r hdvd
  have hlt : r % 2 ^ 64 < 2 ^ 64 := Nat.mod_lt _ (Nat.two_pow_pos 64)
  by_cases h : r % 2 ^ k = 0
  · rw [if_pos h, roundUp_of_aligned hk hlt (hmod.trans h), sub64]
    omega
  · have hspace := boundary_le_space hk hlt
    have hbelow := lt_boundary (Nat.two_pow_pos k) (r % 2 ^ 64)
    have hclose : boundary (2 ^ k) r - r = boundary (2 ^ k) (r % 2 ^ 64) - r % 2 ^ 64 := by
      rw [boundary_sub, boundary_sub, hmod]
    have hne : r % 2 ^ 64 ≠ 0 := fun hz => h (by rw [← hmod, hz, Nat.zero_mod])
    rw [if_neg h, roundUp_of_unaligned hk hlt (by rw [hmod]; exact h), hclose, sub64]
    omega

/-- **`setNext` to a position behind the current chunk.** -/
theorem At.setNext_ok {p q r n : ℕ} (hk : k ≤ 64) (hcs : g.chunkSize = 2 ^ k)
    (h : At first last p q n g) (hpq : p ≤ q) (hqr : q ≤ r) (hr : r ≤ last)
    (hspace : last - first < 2 ^ 64) (hfirst : first ≤ p) (hlap : q % 2 ^ 64 ≤ r % 2 ^ 64) :
    ∃ g', g.setNext (r % 2 ^ 64) = .ok g' ∧ g'.chunkSize = g.chunkSize ∧
      At first last p r (resumed (2 ^ k) last r) g' := by
  have hskip : r % 2 ^ 64 - q % 2 ^ 64 = r - q := by omega
  have hmin : min (r - q) (last - q) = r - q := by omega
  have hlow : decide (r % 2 ^ 64 ≥ g.nextAddr) = true := by
    rw [decide_eq_true_eq, h.nextAddr]
    exact hlap
  have hne : decide (g.chunkSize ≠ 0) = true := by
    rw [decide_eq_true_eq, hcs]
    exact (Nat.two_pow_pos k).ne'
  refine ⟨_, bind_eq_ok.mpr ⟨(), require_ok hlow, bind_eq_ok.mpr ⟨(), require_ok hne, rfl⟩⟩,
    rfl, ?_⟩
  exact
    { startAddr := h.startAddr
      curAddr := h.curAddr
      nextAddr := rfl
      curSize := by
        dsimp only
        rw [h.nextAddr, h.sizeLeft, h.curSize, hskip, hmin, add64]
        omega
      sizeLeft := by
        dsimp only
        rw [h.nextAddr, h.sizeLeft, hskip, hmin]
        omega
      nextSize := by
        dsimp only
        rw [h.nextAddr, h.sizeLeft, hskip, hmin, hcs, sub_roundUp hk, resumed]
        have hbelow := lt_boundary (Nat.two_pow_pos k) r
        by_cases hr0 : r % 2 ^ k = 0
        · rw [if_pos hr0, if_pos hr0, if_pos rfl]
          congr 1
          omega
        · rw [if_neg hr0, if_neg hr0, if_neg (by omega)] }

/-- `setNext` leads back into the region. -/
theorem Beyond.setNext_ok {pos r : ℕ} (hk : k ≤ 64) (hcs : g.chunkSize = 2 ^ k)
    (h : Beyond first last pos g) (hpos : pos < r) (hr : r ≤ last) (hlast : last < 2 ^ 64) :
    ∃ g', g.setNext (r % 2 ^ 64) = .ok g' ∧ g'.chunkSize = g.chunkSize ∧
      At first last pos r (resumed (2 ^ k) last r) g' := by
  have hmod : r % 2 ^ 64 = r := Nat.mod_eq_of_lt (by omega)
  have hmin : min (r % 2 ^ 64 - 0) last = r := by omega
  have hlow : decide (r % 2 ^ 64 ≥ g.nextAddr) = true := by
    rw [decide_eq_true_eq, h.nextAddr]
    exact Nat.zero_le _
  have hne : decide (g.chunkSize ≠ 0) = true := by
    rw [decide_eq_true_eq, hcs]
    exact (Nat.two_pow_pos k).ne'
  refine ⟨_, bind_eq_ok.mpr ⟨(), require_ok hlow, bind_eq_ok.mpr ⟨(), require_ok hne, rfl⟩⟩,
    rfl, ?_⟩
  exact
    { startAddr := h.startAddr
      curAddr := by
        dsimp only
        rw [h.curAddr]
        omega
      nextAddr := rfl
      curSize := by
        dsimp only
        rw [h.nextAddr, h.sizeLeft, h.curSize, hmin, add64]
        omega
      sizeLeft := by
        dsimp only
        rw [h.nextAddr, h.sizeLeft, hmin]
      nextSize := by
        dsimp only
        rw [h.nextAddr, h.sizeLeft, hmin, hcs, sub_roundUp hk, resumed]
        have hbelow := lt_boundary (Nat.two_pow_pos k) r
        by_cases hr0 : r % 2 ^ k = 0
        · rw [if_pos hr0, if_pos hr0, if_pos rfl]
        · rw [if_neg hr0, if_neg hr0, if_neg (by omega)] }

/-- In the last chunk of the address space the generator goes beyond a region that ends there. -/
theorem At.next_beyond {p r : ℕ} (h : At first last p r (resumed (2 ^ k) last r) g) (hr : r < last)
    (hlast : last < 2 ^ 64) (hunaligned : r % 2 ^ k ≠ 0) (hb : boundary (2 ^ k) r = 2 ^ 64) :
    g.next.2.chunkSize = g.chunkSize ∧ Beyond first last r g.next.2 := by
  have hmore : ¬ g.last = true := by
    rw [ChunkGenerator.last, h.sizeLeft, beq_iff_eq]
    omega
  have hsize : g.nextSize = 2 ^ 64 - r := by
    rw [h.nextSize, resumed, if_neg hunaligned, hb]
  rw [ChunkGenerator.next, if_neg hmore]
  refine ⟨rfl, ?_⟩
  exact
    { startAddr := h.startAddr
      curAddr := by
        dsimp only
        rw [h.nextAddr]
        exact Nat.mod_eq_of_lt (by omega)
      nextAddr := by
        dsimp only
        rw [add64, h.nextAddr, hsize]
        omega
      curSize := hsize
      sizeLeft := by
        dsimp only
        rw [sub64, h.sizeLeft, hsize]
        omega }

theorem setNext_low {next : ℕ} (h : next < g.nextAddr) :
    g.setNext next = .error .nextTooLow := by
  rw [setNext, require, if_neg (by simpa using h)]
  rfl

end ChunkGenerator

end Gem5
