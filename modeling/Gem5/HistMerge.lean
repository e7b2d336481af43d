/-
# Merging two histograms

`HistStor::add` grows the finer of two storages until the bucket sizes are equal and adds the
buckets.  Storages with one lower bound below zero have one bucket size, so the growth is upwards
from zero and keeps the counts (`reachSize_ok`).
-/
import Gem5.HistSamples

open Runs Binning IntIndex

namespace Gem5.Statistics

namespace HistStor

/-! ## Bucket sizes -/

/-- Bucket sizes are powers of two. -/
def PowerSize (s : HistStor) : Prop := ∃ n : ℕ, s.bucket_size = 2 ^ n

theorem Grown.powerSize {s s' : HistStor} {d : ℕ} (h : Grown s s' d) (hs : PowerSize s) :
    PowerSize s' := by
  obtain ⟨n, hn⟩ := hs
  exact ⟨n + 1, by rw [h.bucket_size, hn, pow_succ, Int.mul_comm]⟩

theorem Grows.powerSize {s s' : HistStor} (h : Grows s s') (hs : PowerSize s) : PowerSize s' := by
  induction h with
  | refl => exact hs
  | tail _ hstep ih =>
    obtain ⟨d, hd⟩ := hstep
    exact hd.powerSize ih

/-- A storage that samples have led to. -/
theorem reached_ok {buckets size : ℕ} (hp : params buckets = .ok size) {l : List (ℤ × ℤ)}
    {s : HistStor} (hs : (reset size).sampleAll l = .ok s) :
    Shape s ∧ PowerSize s ∧ s.cvec.length = size ∧ Within s l := by
  obtain ⟨hshape, hlen⟩ := reset_shape hp
  obtain ⟨t, ht, hshape', hlen', hw, -⟩ := sampleAll_ok hshape (reset_counts size).1 rfl l
  obtain rfl := Except.ok.inj (hs.symm.trans ht)
  refine ⟨hshape', ?_, hlen'.trans hlen, hw⟩
  have hadm : Admitted (fun _ _ => True) step (reset size) l :=
    admitted_of_forall fun _ _ _ => trivial
  refine (run_invariant (P := fun t => Shape t ∧ PowerSize t) (fun t x t' h _ ht' => ?_)
    ⟨hshape, 0, (pow_zero 2).symm⟩ hadm hs).2
  obtain ⟨hshape, hpower⟩ := h
  obtain ⟨u, v, hv, hu, -, -, hgrows, hcounted⟩ := sample_ok hshape x
  obtain rfl := Except.ok.inj (ht'.symm.trans hv)
  obtain ⟨-, hsize, -⟩ := beforeGrowth_range t x.1
  refine ⟨hcounted.shape hu, ?_⟩
  unfold PowerSize
  rw [hcounted.bucket_size]
  exact hgrows.powerSize (by unfold PowerSize; rw [hsize]; exact hpower)

/-- **Growing up to the bucket size of a coarser storage.**  Storages with a lower bound below zero
have it already. -/
theorem reachSize_ok {s : HistStor} (h : Shape s) (hp : PowerSize s) {size : ℤ}
    (hsize : ∃ n : ℕ, size = 2 ^ n) (hle : s.bucket_size ≤ size)
    (hmin : s.min_bucket = 0 ∨ s.bucket_size = size) :
    ∃ s', growWhile (fun t => t.bucket_size < size) growUp (size.natAbs + 1) s = .ok s' ∧
      Shape s' ∧ s'.min_bucket = s.min_bucket ∧ s'.bucket_size = size ∧ Grows s s' := by
  obtain ⟨m, rfl⟩ := hsize
  rcases hmin with hmin | hmin
  · obtain ⟨s', hs', ⟨hshape, hzero, hle', -, hgrows⟩, hend⟩ := growWhile_ok
      (fun t => decide (t.bucket_size < 2 ^ m))
      (P := fun t => Shape t ∧ t.min_bucket = 0 ∧ t.bucket_size ≤ 2 ^ m ∧ PowerSize t ∧ Grows s t)
      (fun t => (2 ^ m - t.bucket_size).toNat) (fun t ht hcond => by
        obtain ⟨hshape, hzero, _, ⟨n, hn⟩, hgrows⟩ := ht
        obtain ⟨t', ht', hshape', hgrown⟩ := growUp_ok hshape hzero
        have hcond := of_decide_eq_true hcond
        have hpos := hshape.pos
        -- the next power of two is not above that of the coarser storage
        have hnext : t'.bucket_size ≤ 2 ^ m := by
          rw [hgrown.bucket_size, hn, ← pow_succ']
          rw [hn] at hcond
          exact pow_le_pow_right₀ (by decide) ((pow_lt_pow_iff_right₀ (by decide)).mp hcond)
        refine ⟨t', ht', ⟨hshape', ?_, hnext, hgrown.powerSize ⟨n, hn⟩, hgrows.grown hgrown⟩, ?_⟩
        · rw [hgrown.min_bucket, hzero, Nat.cast_zero, zero_mul, sub_zero]
        · rw [hgrown.bucket_size] at hnext ⊢
          omega)
      (((2 : ℤ) ^ m).natAbs + 1) ⟨h, hmin, hle, hp, .refl⟩ (by have hpos := h.pos; omega)
    refine ⟨s', hs', hshape, hzero.trans hmin.symm, ?_, hgrows⟩
    exact le_antisymm hle' (not_lt.mp (of_decide_eq_false hend))
  · refine ⟨s, ?_, h, rfl, hmin, .refl⟩
    unfold growWhile
    rw [hmin, decide_eq_false (lt_irrefl _)]
    rfl

/-! ## Adding -/

/-- Storages with one lower bound have one bucket size, unless it is zero. -/
theorem same_size {s hs : HistStor} (h : Shape s) (h' : Shape hs)
    (hlen : s.cvec.length = hs.cvec.length) (hmin : s.min_bucket = hs.min_bucket) :
    s.min_bucket = 0 ∨ s.bucket_size = hs.bucket_size := by
  have htwo := h.two_le
  rcases h.min_bucket with hzero | hs₀
  · exact .inl hzero
  · rcases h'.min_bucket with hzero | hs₁
    · exact .inl (hmin.trans hzero)
    · rw [hmin, hs₁, ← hlen, neg_inj] at hs₀
      exact .inr (mul_left_cancel₀ (by omega) hs₀).symm

/-- **Both loops of `add`** end with one bucket size. -/
theorem loops_ok {s hs : HistStor} (h : Shape s) (h' : Shape hs) (hp : PowerSize s)
    (hp' : PowerSize hs) (hlen : s.cvec.length = hs.cvec.length)
    (hmin : s.min_bucket = hs.min_bucket) :
    ∃ hs' s', growWhile (fun t => t.bucket_size < s.bucket_size) growUp
        (s.bucket_size.natAbs + 1) hs = .ok hs' ∧
      growWhile (fun t => t.bucket_size < hs'.bucket_size) growUp
        (hs'.bucket_size.natAbs + 1) s = .ok s' ∧
      Shape s' ∧ s'.bucket_size = hs'.bucket_size ∧ s'.min_bucket = hs'.min_bucket ∧
        Grows s s' ∧ Grows hs hs' := by
  have hsame := same_size h h' hlen hmin
  have hstay : ∀ {t : HistStor} {size : ℤ}, size ≤ t.bucket_size →
      growWhile (fun t => t.bucket_size < size) growUp (size.natAbs + 1) t = .ok t := by
    intro t size hle
    unfold growWhile
    rw [decide_eq_false (not_lt.mpr hle)]
    rfl
  rcases le_total hs.bucket_size s.bucket_size with hle | hle
  · obtain ⟨hs', hgrow, -, hmin', hsize', hgrows⟩ := reachSize_ok h' hp' hp hle
      (hsame.imp (fun hz => hmin.symm.trans hz) Eq.symm)
    exact ⟨hs', s, hgrow, hstay hsize'.le, h, hsize'.symm, hmin.trans hmin'.symm, .refl, hgrows⟩
  · obtain ⟨s', hgrow, hshape, hmin', hsize', hgrows⟩ := reachSize_ok h hp hp' hle hsame
    exact ⟨hs, s', hstay hle, hgrow, hshape, hsize', hmin'.trans hmin, hgrows, .refl⟩

/-- **Merging equals sampling into one histogram.**  When both storages count their samples, the
merged one counts the samples of both. -/
theorem add_merges {buckets size : ℕ} (hp : params buckets = .ok size) {l l' : List (ℤ × ℤ)}
    {s hs : HistStor} (hrun : (reset size).sampleAll l = .ok s)
    (hrun' : (reset size).sampleAll l' = .ok hs) (hc : Counts s l) (hc' : Counts hs l')
    (hmin : s.min_bucket = hs.min_bucket) :
    ∃ s' hs', s.add hs = .ok (s', hs') ∧ s'.bucket_size = hs'.bucket_size ∧
      Counts s' (l ++ l') ∧
      s'.max_bucket = s'.min_bucket + (s'.cvec.length - 1) * s'.bucket_size ∧
      s'.sum = s.sum + hs.sum ∧ s'.squares = s.squares + hs.squares ∧
      s'.samples = s.samples + hs.samples := by
  obtain ⟨hshape, hpower, hlen, hw⟩ := reached_ok hp hrun
  obtain ⟨hshape', hpower', hlen', hw'⟩ := reached_ok hp hrun'
  have hsize := hlen.trans hlen'.symm
  -- the sums are added before the loops
  have hsum : Shape { s with
      sum := s.sum + hs.sum
      squares := s.squares + hs.squares
      samples := s.samples + hs.samples } :=
    ⟨hshape.two_le, hshape.pos, hshape.max_bucket, hshape.min_bucket⟩
  obtain ⟨hs', t, hgrow', hgrow, ht, hbucket, hmin', hgrows, hgrows'⟩ :=
    loops_ok hsum hshape' hpower hpower' hsize hmin
  obtain ⟨-, hwt, hct⟩ := hgrows.counts (l := l) hsum.pos hw
  obtain ⟨-, -, hch⟩ := hgrows'.counts hshape'.pos hw'
  have hlength : hs'.cvec.length = t.cvec.length := by
    rw [hgrows'.sameSums.length, hgrows.sameSums.length, hsize]
  have hzip : (List.zipWith (· + ·) t.cvec hs'.cvec).length = t.cvec.length := by
    rw [List.length_zipWith, hlength, Nat.min_self]
  refine ⟨{ t with cvec := List.zipWith (· + ·) t.cvec hs'.cvec }, hs', ?_, hbucket,
    fun i hi => ?_, ?_, hgrows.sameSums.sum, hgrows.sameSums.squares, hgrows.sameSums.samples⟩
  · unfold add
    rw [require_ok (decide_eq_true hsize), require_ok (decide_eq_true hmin)]
    dsimp only [bind, Except.bind]
    rw [show growWhile _ growUp _ hs = .ok hs' from hgrow']
    dsimp only
    rw [show growWhile _ growUp _ _ = .ok t from hgrow]
    rfl
  · rw [List.getElem_zipWith, hct hc i (hzip ▸ hi), hch hc' i (hlength ▸ hzip ▸ hi), count_append,
      hmin', hbucket]
  · rw [hzip]
    exact ht.max_bucket

instance (s : HistStor) (l : List (ℤ × ℤ)) : Decidable (Counts s l) :=
  inferInstanceAs (Decidable (∀ i (_ : i < s.cvec.length), _))

/-- Samples up to 32 and up to 80 in four buckets each. -/
theorem add_merges_four : ∃ s hs s' hs',
    (reset 4).sampleAll [(0, 5), (20, 37), (32, 18)] = .ok s ∧ s.bucket_size = 16 ∧
      (reset 4).sampleAll [(10, 10), (80, 4)] = .ok hs ∧ hs.bucket_size = 32 ∧
      s.add hs = .ok (s', hs') ∧
      Counts s' ([(0, 5), (20, 37), (32, 18)] ++ [(10, 10), (80, 4)]) := by
  have hrun : ∃ s, (reset 4).sampleAll [(0, 5), (20, 37), (32, 18)] = .ok s ∧
      s.bucket_size = 16 ∧ s.min_bucket = 0 ∧ Counts s [(0, 5), (20, 37), (32, 18)] := by
    decide +kernel
  have hrun' : ∃ hs, (reset 4).sampleAll [(10, 10), (80, 4)] = .ok hs ∧
      hs.bucket_size = 32 ∧ hs.min_bucket = 0 ∧ Counts hs [(10, 10), (80, 4)] := by
    decide +kernel
  obtain ⟨s, hs, hsize, hmin, hc⟩ := hrun
  obtain ⟨t, ht, hsize', hmin', hc'⟩ := hrun'
  obtain ⟨s', t', hadd, -, hcounts, -⟩ :=
    add_merges (show params 4 = .ok 4 from rfl) hs ht hc hc' (hmin.trans hmin'.symm)
  exact ⟨s, t, s', t', hs, hsize, ht, hsize', hadd, hcounts⟩

end HistStor

end Gem5.Statistics
