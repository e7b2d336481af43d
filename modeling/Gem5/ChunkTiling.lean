/-
# Chunks that tile a region

What a program gets from a `ChunkGenerator` (`base/chunk_generator.hh`) that it advances with `next`
and moves on with `setNext`.  A chunk is generated inside the region and inside one chunk of the
address space; `setNext` makes the current one grow, over boundaries too, so that the chunks as they
are left tile the region.  Behind the last target of `setNext` the chunks cover it as generated.

The size that `setNext` computes for a target inside a chunk goes to the end of that chunk, which
may lie behind the end of the region.
-/
import Gem5.ChunkGenerator

namespace Gem5.ChunkGenerator

open Runs

/-! ## A walk over a region -/

structure Chunk where
  addr : ℕ
  size : ℕ
  deriving DecidableEq, Repr

/-- A generator in use: the chunks as they were generated and as they were left, newest first, the
last target of `setNext`, and the number of calls of `next`. -/
structure Walk where
  gen : ChunkGenerator
  chunks : List Chunk
  left : List Chunk
  target : Option ℕ
  steps : ℕ

inductive Op
  | next
  | setNext (next : ℕ)
  deriving DecidableEq, Repr

/-- A chunk size that the constructor accepts: none, or a power of two of 64 bits. -/
def ValidSize (chunkSize : ℕ) : Prop := chunkSize = 0 ∨ ∃ k < 64, chunkSize = 2 ^ k

theorem ValidSize.power {chunkSize : ℕ} (h : ValidSize chunkSize) (hne : chunkSize ≠ 0) :
    ∃ k < 64, chunkSize = 2 ^ k := h.resolve_left hne

/-- The current chunk of a generator that is not done. -/
def current (g : ChunkGenerator) : List Chunk := if g.done then [] else [⟨g.addr, g.size⟩]

def Walk.start (g : ChunkGenerator) : Walk := ⟨g, g.current, [], none, 0⟩

def Walk.step (w : Walk) : Op → Except ChunkFault Walk
  | .next =>
      .ok {
        gen := w.gen.next.2
        chunks := if w.gen.next.1 then w.gen.next.2.current ++ w.chunks else w.chunks
        left := w.gen.current ++ w.left
        target := w.target
        steps := w.steps + 1 }
  | .setNext next => do
      let gen ← w.gen.setNext next
      return { w with gen := gen, target := some next }

/-- A call of `setNext` goes on inside the region.  A call of `next` that leads to a target inside a
chunk of the address space finds the end of that chunk inside the region. -/
def Allowed (last : ℕ) (w : Walk) : Op → Prop
  | .next => w.target = none ∨ w.gen.last = true ∨ w.gen.nextAddr % w.gen.chunkSize = 0 ∨
      boundary w.gen.chunkSize w.gen.nextAddr ≤ last
  | .setNext next => w.gen.chunkSize ≠ 0 ∧ w.gen.nextAddr ≤ next ∧ next ≤ last

instance (last : ℕ) (w : Walk) (op : Op) : Decidable (Allowed last w op) := by
  cases op <;> unfold Allowed <;> infer_instance

/-- Chunks, newest first, that follow one another from `lo` to `hi`. -/
def Tiles (lo : ℕ) : ℕ → List Chunk → Prop
  | hi, [] => lo = hi
  | hi, c :: chunks => 0 < c.size ∧ c.addr + c.size = hi ∧ Tiles lo c.addr chunks

/-! ## The chunks up to a position -/

/-- The chunks generated before position `q`. -/
structure Books (first chunkSize q : ℕ) (chunks : List Chunk) (target : Option ℕ) : Prop where
  inside : ∀ c ∈ chunks, first ≤ c.addr ∧ 0 < c.size ∧ c.addr + c.size ≤ q ∧
    (chunkSize ≠ 0 → c.addr + c.size ≤ boundary chunkSize c.addr)
  ordered : chunks.Pairwise fun later earlier => earlier.addr + earlier.size ≤ later.addr
  covered : ∀ a, target.getD first ≤ a → a < q → ∃ c ∈ chunks, c.addr ≤ a ∧ a < c.addr + c.size

section Books

variable {first cs q : ℕ} {chunks : List Chunk} {target : Option ℕ}

theorem books_nil (first cs : ℕ) : Books first cs first [] none where
  inside := fun _ hc => by cases hc
  ordered := .nil
  covered := fun _ hlow hhigh => absurd hlow (not_le.mpr hhigh)

/-- One more chunk. -/
theorem Books.chunk (h : Books first cs q chunks target) {n : ℕ} (hfirst : first ≤ q) (hn : 0 < n)
    (hb : cs ≠ 0 → q + n ≤ boundary cs q) :
    Books first cs (q + n) (⟨q, n⟩ :: chunks) target where
  inside c hc := by
    rcases List.mem_cons.mp hc with rfl | hc
    · exact ⟨hfirst, hn, le_rfl, hb⟩
    · obtain ⟨h1, h2, h3, h4⟩ := h.inside c hc
      exact ⟨h1, h2, by omega, h4⟩
  ordered := List.pairwise_cons.mpr ⟨fun c hc => (h.inside c hc).2.2.1, h.ordered⟩
  covered a hlow hhigh := by
    rcases Nat.lt_or_ge a q with hlt | hge
    · obtain ⟨c, hc, hin⟩ := h.covered a hlow hlt
      exact ⟨c, List.mem_cons_of_mem _ hc, hin⟩
    · exact ⟨_, List.mem_cons_self, hge, hhigh⟩

/-- Nothing is asked for before a new target. -/
theorem Books.skip (h : Books first cs q chunks target) {r : ℕ} (hr : q ≤ r) :
    Books first cs r chunks (some r) where
  inside c hc := by
    obtain ⟨h1, h2, h3, h4⟩ := h.inside c hc
    exact ⟨h1, h2, by omega, h4⟩
  ordered := h.ordered
  covered a hlow hhigh := absurd hlow (not_le.mpr hhigh)

end Books

/-! ## The invariant -/

/-- The walk is at the chunk `[p, q)`. -/
structure Active (first last cs p q : ℕ) (w : Walk) : Prop where
  position : ∃ n, At first last p q n w.gen ∧ (q < last → n = resumed cs last q)
  chunkSize : w.gen.chunkSize = cs
  bounds : first ≤ p ∧ p < q ∧ q ≤ last
  whole : cs = 0 → q = last
  aligned : w.target = none → q < last → q % cs = 0
  books : Books first cs q w.chunks w.target
  left : Tiles first p w.left
  same : w.target = none → w.chunks = ⟨p, q - p⟩ :: w.left
  steps : w.steps + (last - q) < last - first

/-- The walk is over. -/
structure Finished (first last cs : ℕ) (w : Walk) : Prop where
  curSize : w.gen.curSize = 0
  sizeLeft : w.gen.sizeLeft = 0
  startAddr : w.gen.startAddr = first
  nextAddr : w.gen.nextAddr = last
  chunkSize : w.gen.chunkSize = cs
  curAddr : first ≤ w.gen.curAddr ∧ w.gen.curAddr ≤ last
  books : Books first cs last w.chunks w.target
  left : Tiles first last w.left
  same : w.target = none → w.chunks = w.left

def Inv (first last cs : ℕ) (w : Walk) : Prop :=
  (∃ p q, Active first last cs p q w) ∨ Finished first last cs w

section Steps

variable {first last cs p q : ℕ} {w : Walk}

theorem current_of_done {g : ChunkGenerator} (h : g.curSize = 0) : g.current = [] :=
  if_pos (beq_iff_eq.mpr h)

theorem At.current {n : ℕ} {g : ChunkGenerator} (h : At first last p q n g) (hp : p < 2 ^ 64)
    (hlt : p < q) : g.current = [⟨p, q - p⟩] := by
  have hsize : ¬g.done = true := by
    rw [done, h.curSize, beq_iff_eq]
    omega
  rw [ChunkGenerator.current, if_neg hsize, addr, size, h.curAddr, h.curSize, Nat.mod_eq_of_lt hp]

/-- The next chunk does not cross a boundary, and ends at one or with the region. -/
theorem resumed_spec {k : ℕ} (hq : q < last)
    (hroom : q % 2 ^ k = 0 ∨ boundary (2 ^ k) q ≤ last) :
    0 < resumed (2 ^ k) last q ∧ q + resumed (2 ^ k) last q ≤ last ∧
      q + resumed (2 ^ k) last q ≤ boundary (2 ^ k) q ∧
      (q + resumed (2 ^ k) last q < last → (q + resumed (2 ^ k) last q) % 2 ^ k = 0) := by
  have hpos : 0 < 2 ^ k := Nat.two_pow_pos k
  have hlt := lt_boundary hpos q
  unfold resumed
  by_cases haligned : q % 2 ^ k = 0
  · have hb := boundary_of_aligned haligned
    rw [if_pos haligned]
    refine ⟨by omega, by omega, by omega, fun hmore => ?_⟩
    rw [show q + min (last - q) (2 ^ k) = q + 2 ^ k by omega, Nat.add_mod_right, haligned]
  · have hle := hroom.resolve_left haligned
    rw [if_neg haligned]
    refine ⟨by omega, by omega, by omega, fun _ => ?_⟩
    rw [Nat.add_sub_cancel' hlt.le]
    exact boundary_mod _ _

/-- **Advancing** from a chunk. -/
theorem Active.next (h : Active first last cs p q w) (hcs : ValidSize cs)
    (hlast : last < 2 ^ 64) (ha : Allowed last w .next) :
    ∃ w', w.step .next = .ok w' ∧ Inv first last cs w' := by
  refine ⟨_, rfl, ?_⟩
  obtain ⟨⟨n, hat, hn⟩, hsize, ⟨hfirst, hpq, hq⟩, hwhole, hstays, hbooks, hleft, hsame, hsteps⟩ := h
  have hcur : w.gen.current = [⟨p, q - p⟩] := hat.current (by omega) hpq
  have hnewLeft : Tiles first q (⟨p, q - p⟩ :: w.left) :=
    ⟨by dsimp only; omega, by dsimp only; omega, hleft⟩
  rcases hq.lt_or_eq with hlt | rfl
  · -- another chunk
    left
    obtain ⟨k, hk, rfl⟩ := hcs.power fun hzero => hlt.ne (hwhole hzero)
    have hnext : w.gen.nextAddr = q := by
      rw [hat.nextAddr, Nat.mod_eq_of_lt (by omega)]
    have hroom : q % 2 ^ k = 0 ∨ boundary (2 ^ k) q ≤ last := by
      have hmore : ¬w.gen.last = true := by
        rw [ChunkGenerator.last, hat.sizeLeft, beq_iff_eq]
        omega
      rcases ha with htarget | hend | hroom
      · exact .inl (hstays htarget hlt)
      · exact absurd hend hmore
      · rw [hnext, hsize] at hroom
        exact hroom
    obtain ⟨hpos, hend, hbound, haligned⟩ := resumed_spec hlt hroom
    rw [← hn hlt] at hpos hend hbound haligned
    obtain ⟨hcs', hat'⟩ := hat.next_chunk hlt (by omega) (by omega) (by omega)
    have hcur' : w.gen.next.2.current = [⟨q, q + n - q⟩] :=
      hat'.current (by omega) (by omega)
    exact
      ⟨q, q + n,
        { position := ⟨_, hat', fun hmore => by rw [hsize, resumed, if_pos (haligned hmore)]⟩
          chunkSize := hcs'.trans hsize
          bounds := ⟨by omega, by omega, hend⟩
          whole := fun hzero => absurd hzero (Nat.two_pow_pos k).ne'
          aligned := fun _ hmore => haligned hmore
          books := by
            dsimp only
            rw [if_pos (hat.next_more hlt), hcur', Nat.add_sub_cancel_left]
            exact hbooks.chunk (by omega) hpos fun _ => hbound
          left := by
            dsimp only
            rw [hcur]
            exact hnewLeft
          same := fun htarget => by
            dsimp only at htarget ⊢
            rw [if_pos (hat.next_more hlt), hcur', hsame htarget, hcur]
            rfl
          steps := by
            dsimp only
            omega }⟩
  · -- the last chunk ends the walk
    right
    rw [hat.next_last]
    exact
      { curSize := rfl
        sizeLeft := hat.sizeLeft.trans (Nat.sub_self _)
        startAddr := hat.startAddr
        nextAddr := hat.nextAddr.trans (Nat.mod_eq_of_lt hlast)
        chunkSize := hsize
        curAddr := by
          dsimp only
          rw [hat.curAddr, Nat.mod_eq_of_lt (by omega)]
          omega
        books := hbooks
        left := by
          dsimp only
          rw [hcur]
          exact hnewLeft
        same := fun htarget => by
          dsimp only at htarget ⊢
          rw [hcur]
          exact hsame htarget }

/-- **Moving on** from a chunk lets it grow. -/
theorem Active.setNext (h : Active first last cs p q w) (hcs : ValidSize cs)
    (hlast : last < 2 ^ 64) {r : ℕ} (ha : Allowed last w (.setNext r)) :
    ∃ w', w.step (.setNext r) = .ok w' ∧ Inv first last cs w' := by
  obtain ⟨⟨n, hat, hn⟩, hsize, ⟨hfirst, hpq, hq⟩, hwhole, hstays, hbooks, hleft, hsame, hsteps⟩ := h
  obtain ⟨hne, hqr, hr⟩ := ha
  rw [hsize] at hne
  obtain ⟨k, hk, rfl⟩ := hcs.power hne
  rw [hat.nextAddr, Nat.mod_eq_of_lt (by omega)] at hqr
  have hmod : r % 2 ^ 64 = r := Nat.mod_eq_of_lt (by omega)
  obtain ⟨g, hg, hcs', hat'⟩ := hat.setNext_ok hk.le hsize hpq.le hqr hr (by omega) hfirst
    (by rw [hmod, Nat.mod_eq_of_lt (by omega)]; exact hqr)
  rw [hmod] at hg
  refine ⟨_, bind_eq_ok.mpr ⟨g, hg, rfl⟩, .inl ⟨p, r, ?_⟩⟩
  exact
    { position := ⟨_, hat', fun _ => rfl⟩
      chunkSize := hcs'.trans hsize
      bounds := ⟨hfirst, by omega, hr⟩
      whole := fun hzero => absurd hzero hne
      aligned := fun htarget => nomatch htarget
      books := hbooks.skip hqr
      left := hleft
      same := fun htarget => nomatch htarget
      steps := by
        dsimp only
        omega }

theorem Finished.next (h : Finished first last cs w) :
    ∃ w', w.step .next = .ok w' ∧ Inv first last cs w' := by
  refine ⟨_, rfl, .inr ?_⟩
  have hend : w.gen.last = true := beq_iff_eq.mpr h.sizeLeft
  have hnext : w.gen.next = (false, { w.gen with curSize := 0 }) := by
    rw [ChunkGenerator.next, if_pos hend]
  rw [hnext, current_of_done h.curSize]
  exact ⟨rfl, h.sizeLeft, h.startAddr, h.nextAddr, h.chunkSize, h.curAddr, h.books, h.left, h.same⟩

theorem Finished.setNext (h : Finished first last cs w) {r : ℕ} (ha : Allowed last w (.setNext r)) :
    ∃ w', w.step (.setNext r) = .ok w' ∧ Inv first last cs w' := by
  obtain ⟨hne, hqr, hr⟩ := ha
  have hr' : r = last := le_antisymm hr (h.nextAddr ▸ hqr)
  refine ⟨_, bind_eq_ok.mpr ⟨_, bind_eq_ok.mpr ⟨(), require_ok (decide_eq_true hqr),
    bind_eq_ok.mpr ⟨(), require_ok (decide_eq_true hne), rfl⟩⟩, rfl⟩, .inr ?_⟩
  exact
    { curSize := by
        dsimp only
        rw [h.sizeLeft, h.curSize, Nat.min_zero]
        rfl
      sizeLeft := by
        dsimp only
        rw [h.sizeLeft, Nat.zero_sub]
      startAddr := h.startAddr
      nextAddr := hr'
      chunkSize := h.chunkSize
      curAddr := h.curAddr
      books := hr' ▸ h.books.skip (hr'.symm ▸ le_rfl)
      left := h.left
      same := fun htarget => nomatch htarget }

/-- **Every allowed operation** succeeds and keeps the invariant. -/
theorem Inv.step (h : Inv first last cs w) (hcs : ValidSize cs)
    (hlast : last < 2 ^ 64) {op : Op} (ha : Allowed last w op) :
    ∃ w', w.step op = .ok w' ∧ Inv first last cs w' := by
  rcases h with ⟨p, q, hactive⟩ | hfinished
  · cases op with
    | next => exact hactive.next hcs hlast ha
    | setNext r => exact hactive.setNext hcs hlast ha
  · cases op with
    | next => exact hfinished.next
    | setNext r => exact hfinished.setNext ha

end Steps

/-! ## The constructor -/

/-- The first chunk ends at a boundary, or with the region. -/
theorem create_inv {first size cs : ℕ} (hcs : ValidSize cs) (hlast : first + size < 2 ^ 64)
    (hb : cs ≠ 0 → boundary cs first < 2 ^ 64) :
    ∃ g, create first size cs = .ok g ∧ Inv first (first + size) cs (Walk.start g) := by
  obtain ⟨q, hfirstq, hq, hnext, hbound, hwhole, haligned⟩ : ∃ q, first ≤ q ∧ q ≤ first + size ∧
      firstNext first size cs = q ∧ (cs ≠ 0 → q ≤ boundary cs first) ∧
      (cs = 0 ∨ size = 0 → q = first + size) ∧
      (q < first + size → first < q ∧ q % cs = 0) := by
    rcases hcs with rfl | ⟨k, hk, rfl⟩
    · refine ⟨first + size, by omega, le_rfl, ?_, by omega, by omega, by omega⟩
      rw [firstNext, if_pos rfl, add64, Nat.mod_eq_of_lt hlast]
    · have hne : 2 ^ k ≠ 0 := (Nat.two_pow_pos k).ne'
      have hlt := lt_boundary (Nat.two_pow_pos k) first
      refine ⟨min (boundary (2 ^ k) first) (first + size), by omega, by omega, ?_, by omega,
        by omega, fun hmore => ?_⟩
      · rw [firstNext_eq hk.le (by omega), Nat.mod_eq_of_lt (hb hne), Nat.mod_eq_of_lt hlast]
      · rw [min_eq_left (by omega)]
        exact ⟨hlt, boundary_mod _ _⟩
  have hcur : sub64 q first = q - first := by
    rw [sub64]
    omega
  have hleft : sub64 size (q - first) = first + size - q := by
    rw [sub64]
    omega
  have hsize : cs = 0 ∨ isPowerOf2 cs = true := by
    rcases hcs with hcs | ⟨k, -, rfl⟩
    · exact .inl hcs
    · exact .inr (isPowerOf2_two_pow k)
  refine ⟨_, bind_eq_ok.mpr ⟨(), require_ok (decide_eq_true hsize), rfl⟩, ?_⟩
  simp only [hnext, hcur, hleft]
  rcases hfirstq.lt_or_eq with hlt | rfl
  · left
    have hat : At first (first + size) first q (min (first + size - q) cs)
        { curAddr := first, nextAddr := q, curSize := q - first,
          nextSize := min (first + size - q) cs, sizeLeft := first + size - q,
          startAddr := first, chunkSize := cs } :=
      ⟨rfl, (Nat.mod_eq_of_lt (show first < 2 ^ 64 by omega)).symm,
        (Nat.mod_eq_of_lt (show q < 2 ^ 64 by omega)).symm, rfl, rfl, rfl⟩
    have hcurrent := hat.current (by omega) hlt
    exact
      ⟨first, q,
        { position := ⟨_, hat, fun hmore => by rw [resumed, if_pos (haligned hmore).2]⟩
          chunkSize := rfl
          bounds := ⟨le_rfl, hlt, hq⟩
          whole := fun hzero => hwhole (.inl hzero)
          aligned := fun _ hmore => (haligned hmore).2
          books := by
            have hbooks := (books_nil first cs).chunk (n := q - first) le_rfl (by omega)
              fun hne => by
                have := hbound hne
                omega
            rw [Nat.add_sub_cancel' hlt.le] at hbooks
            dsimp only [Walk.start]
            rw [hcurrent]
            exact hbooks
          left := rfl
          same := fun _ => hcurrent
          steps := by
            dsimp only [Walk.start]
            omega }⟩
  · -- an empty region
    right
    have hzero : size = 0 := by
      by_contra hne
      have := haligned
      omega
    subst hzero
    exact
      { curSize := Nat.sub_self _
        sizeLeft := Nat.sub_self _
        startAddr := rfl
        nextAddr := rfl
        chunkSize := rfl
        curAddr := ⟨le_rfl, le_rfl⟩
        books := by
          dsimp only [Walk.start]
          rw [current_of_done (Nat.sub_self _)]
          exact books_nil first cs
        left := rfl
        same := fun _ => current_of_done (Nat.sub_self _) }

/-! ## The chunks of a walk -/

/-- What holds after any operations, and when the generator is done. -/
structure Tiling (first last chunkSize : ℕ) (w : Walk) : Prop where
  inside : ∀ c ∈ w.chunks, first ≤ c.addr ∧ 0 < c.size ∧ c.addr + c.size ≤ last ∧
    (chunkSize ≠ 0 → c.addr + c.size ≤ boundary chunkSize c.addr)
  ordered : w.chunks.Pairwise fun later earlier => earlier.addr + earlier.size ≤ later.addr
  complete : w.gen.complete ≤ last - first
  grown : Tiles first (if w.gen.done then last else w.gen.nextAddr) (w.gen.current ++ w.left)
  covered : w.gen.done = true → ∀ a, w.target.getD first ≤ a → a < last →
    ∃ c ∈ w.chunks, c.addr ≤ a ∧ a < c.addr + c.size
  plain : w.target = none → w.chunks = w.gen.current ++ w.left
  ends : last - first ≤ w.steps → w.gen.done = true

theorem Inv.tiling {first last cs : ℕ} {w : Walk} (h : Inv first last cs w)
    (hlast : last < 2 ^ 64) : Tiling first last cs w := by
  rcases h with ⟨p, q, h⟩ | h
  · obtain ⟨⟨n, hat, hn⟩, hsize, ⟨hfirst, hpq, hq⟩, hwhole, hstays, hbooks, hleft, hsame,
      hsteps⟩ := h
    have hcur : w.gen.current = [⟨p, q - p⟩] := hat.current (by omega) hpq
    have hgo : ¬w.gen.done = true := by
      rw [done, hat.curSize, beq_iff_eq]
      omega
    refine ⟨fun c hc => ?_, hbooks.ordered, ?_, ?_, fun hdone => absurd hdone hgo,
      fun htarget => ?_, fun hmany => by omega⟩
    · obtain ⟨h1, h2, h3, h4⟩ := hbooks.inside c hc
      exact ⟨h1, h2, by omega, h4⟩
    · rw [complete, sub64, hat.curAddr, hat.startAddr]
      omega
    · rw [if_neg hgo, hcur, hat.nextAddr, Nat.mod_eq_of_lt (by omega)]
      exact ⟨by dsimp only; omega, by dsimp only; omega, hleft⟩
    · rw [hcur]
      exact hsame htarget
  · have hdone : w.gen.done = true := beq_iff_eq.mpr h.curSize
    have hcur := h.curAddr
    refine ⟨h.books.inside, h.books.ordered, ?_, ?_, fun _ => h.books.covered, fun htarget => ?_,
      fun _ => hdone⟩
    · rw [complete, sub64, h.startAddr]
      omega
    · rw [if_pos hdone, current_of_done h.curSize]
      exact h.left
    · rw [current_of_done h.curSize]
      exact h.same htarget

/-- **Chunks tile the region.** -/
theorem chunks_tile (first size chunkSize : ℕ) (hcs : ValidSize chunkSize)
    (hlast : first + size < 2 ^ 64) (hb : chunkSize ≠ 0 → boundary chunkSize first < 2 ^ 64) :
    ∃ g, create first size chunkSize = .ok g ∧
      ∀ ops, Admitted (Allowed (first + size)) Walk.step (Walk.start g) ops →
        ∃ w, run Walk.step (Walk.start g) ops = .ok w ∧
          Tiling first (first + size) chunkSize w := by
  obtain ⟨g, hg, hinv⟩ := create_inv hcs hlast hb
  refine ⟨g, hg, fun ops hops => ?_⟩
  obtain ⟨w, hw, hinv'⟩ := run_total (fun w op hw ha => hw.step hcs hlast ha) hinv hops
  exact ⟨w, hw, hinv'.tiling hlast⟩

/-- The second chunk grows to `150`, inside the chunk behind it. -/
theorem chunks_tile_skipping :
    ∃ g w, create 16 200 64 = .ok g ∧
      run Walk.step (Walk.start g) [.next, .setNext 150, .next, .next, .next] = .ok w ∧
        w.chunks = [⟨192, 24⟩, ⟨150, 42⟩, ⟨64, 64⟩, ⟨16, 48⟩] ∧
        w.left = [⟨192, 24⟩, ⟨150, 42⟩, ⟨64, 86⟩, ⟨16, 48⟩] ∧ Tiling 16 216 64 w := by
  obtain ⟨g, hg, htiles⟩ :=
    chunks_tile 16 200 64 (.inr ⟨6, by decide, rfl⟩) (by decide) (by decide)
  obtain rfl := Except.ok.inj hg
  obtain ⟨w, hw, htiling⟩ :=
    htiles [.next, .setNext 150, .next, .next, .next] (by decide +kernel)
  obtain rfl := Except.ok.inj hw
  exact ⟨_, _, hg, hw, by decide +kernel, by decide +kernel, htiling⟩

/-- `setNext` to an address of the current chunk fails, and to one behind its boundary lets the
chunk grow over it. -/
theorem setNext_grows : ∃ g g', create 0 256 64 = .ok g ∧ g.setNext 10 = .error .nextTooLow ∧
    g.setNext 128 = .ok g' ∧ g'.addr = 0 ∧ g'.size = 128 := by
  refine ⟨_, _, rfl, rfl, rfl, ?_⟩
  decide

end Gem5.ChunkGenerator
