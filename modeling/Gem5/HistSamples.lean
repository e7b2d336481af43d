/-
# No sample of a histogram is lost

The samples that a histogram has taken, against its buckets.  Its range holds all of them, and
growing keeps their counts (`Grows.counts`), apart from the first growth outwards with `4 * k + 3`
buckets, which drops what the first bucket has counted.  What is dropped never comes back
(`Short`), so a histogram counts its samples if and only if the first bucket was empty each time
(`noSampleLost_iff`).
-/
import Gem5.HistGrowth

open Runs Binning IntIndex

namespace Gem5.Statistics

namespace HistStor

/-! ## Growing several times -/

/-- The storage after some merges. -/
def Grows : HistStor → HistStor → Prop := Relation.ReflTransGen fun s s' => ∃ d, Grown s s' d

/-- What merging keeps. -/
structure SameSums (s s' : HistStor) : Prop where
  length : s'.cvec.length = s.cvec.length
  sum : s'.sum = s.sum
  squares : s'.squares = s.squares
  samples : s'.samples = s.samples

variable {s s' : HistStor} {l : List (ℤ × ℤ)}

theorem Grows.sameSums (h : Grows s s') : SameSums s s' := by
  induction h with
  | refl => exact ⟨rfl, rfl, rfl, rfl⟩
  | tail _ hstep ih =>
    obtain ⟨d, hd⟩ := hstep
    exact ⟨hd.length.trans ih.length, hd.sum.trans ih.sum, hd.squares.trans ih.squares,
      hd.samples.trans ih.samples⟩

theorem Grows.counts (h : Grows s s') (hpos : 0 < s.bucket_size) (hw : Within s l) :
    0 < s'.bucket_size ∧ Within s' l ∧ (Counts s l → Counts s' l) := by
  induction h with
  | refl => exact ⟨hpos, hw, id⟩
  | tail _ hstep ih =>
    obtain ⟨d, hd⟩ := hstep
    obtain ⟨hpos, hw, hc⟩ := ih
    exact ⟨hd.bucket_size ▸ mul_pos (by decide) hpos, hd.within hpos hw,
      fun h => hd.counts hpos hw (hc h)⟩

theorem Grown.grows {d : ℕ} (h : Grown s s' d) : Grows s s' :=
  .single ⟨d, h⟩

theorem Grows.grown {s'' : HistStor} {d : ℕ} (h : Grows s s') (h' : Grown s' s'' d) :
    Grows s s'' := Relation.ReflTransGen.tail h ⟨d, h'⟩

/-- **The growing loops end** if a measure gets smaller with every round. -/
theorem growWhile_ok (cond : HistStor → Bool) {grow : HistStor → Except HistFail HistStor}
    {P : HistStor → Prop} (m : HistStor → ℕ)
    (hgrow : ∀ s, P s → cond s = true → ∃ s', grow s = .ok s' ∧ P s' ∧ m s' < m s) (fuel : ℕ) :
    ∀ {s}, P s → m s < fuel →
      ∃ s', growWhile cond grow fuel s = .ok s' ∧ P s' ∧ cond s' = false := by
  induction fuel with
  | zero => exact fun _ hm => absurd hm (Nat.not_lt_zero _)
  | succ fuel ih =>
    intro s hs hm
    unfold growWhile
    cases hcond : cond s with
    | false => exact ⟨s, rfl, hs, hcond⟩
    | true =>
      obtain ⟨s₁, hs₁, hP, hlt⟩ := hgrow s hs hcond
      obtain ⟨s', hs', hP', hend⟩ := ih hP (by omega)
      refine ⟨s', ?_, hP', hend⟩
      rw [if_pos rfl, hs₁]
      exact hs'

theorem Shape.min_nonpos (h : Shape s) : s.min_bucket ≤ 0 := by
  rcases h.min_bucket with hmin | hmin
  · exact hmin.le
  · rw [hmin, neg_nonpos]
    exact mul_nonneg (Int.natCast_nonneg _) h.pos.le

theorem Shape.top_pos (h : Shape s) : 0 < s.top := by
  have htwo := h.two_le
  have hpos := h.pos
  unfold top
  rcases h.min_bucket with hmin | hmin
  · rw [hmin, zero_add]
    exact mul_pos (by omega) hpos
  · rw [hmin, neg_add_eq_sub, ← sub_mul]
    exact mul_pos (by omega) hpos

/-- A storage that `growOut` merges as a whole. -/
def Whole (s₀ s : HistStor) : Prop :=
  Shape s ∧ s.min_bucket < 0 ∧ s.merged = s ∧ Grows s₀ s

theorem Whole.growOut {s₀ s : HistStor} (h : Whole s₀ s) :
    ∃ s', s.growOut = .ok s' ∧ Whole s₀ s' ∧ s'.min_bucket < s.min_bucket ∧ s.top < s'.top := by
  obtain ⟨hshape, hneg, hmerged, hgrows⟩ := h
  obtain ⟨s', hs', hshape', hgrown, hneg', hmerged'⟩ := growOut_ok hshape hneg
  rw [hmerged] at hgrown
  have htwo := hshape.two_le
  refine ⟨s', hs', ⟨hshape', hneg', hmerged', hgrows.grown hgrown⟩, ?_, ?_⟩
  · rw [hgrown.min_bucket]
    exact sub_lt_self _ (mul_pos (by omega) hshape.pos)
  · rw [hgrown.top_eq]
    exact lt_add_of_pos_right _ (mul_pos (by omega) hshape.pos)

/-- A loop of `growOut`, whose first round may leave out the first bucket. -/
theorem outwards_ok (cond : HistStor → Bool) (m : HistStor → ℕ)
    (hm : ∀ s s', Shape s → Shape s' → cond s = true → s'.min_bucket < s.min_bucket →
      s.top < s'.top → m s' < m s) (h : Shape s) (hneg : s.min_bucket < 0) (fuel : ℕ)
    (hfuel : m s < fuel) :
    ∃ s', growWhile cond growOut fuel s = .ok s' ∧ Shape s' ∧ cond s' = false ∧
      Grows (if cond s then s.merged else s) s' := by
  have hwhole : ∀ fuel s₀ {s}, Whole s₀ s → m s < fuel →
      ∃ s', growWhile cond growOut fuel s = .ok s' ∧ Whole s₀ s' ∧ cond s' = false :=
    fun fuel s₀ => growWhile_ok cond (P := Whole s₀) m (fun t ht hcond => by
      obtain ⟨t', ht', hwhole, hmin, htop⟩ := ht.growOut
      exact ⟨t', ht', hwhole, hm t t' ht.1 hwhole.1 hcond hmin htop⟩) fuel
  cases fuel with
  | zero => exact absurd hfuel (Nat.not_lt_zero _)
  | succ fuel =>
    cases hcond : cond s with
    | false =>
      refine ⟨s, ?_, h, hcond, .refl⟩
      unfold growWhile
      rw [hcond]
      rfl
    | true =>
      obtain ⟨s₁, hs₁, hshape, hgrown, hneg', hmerged⟩ := growOut_ok h hneg
      have htwo := h.two_le
      have hdown : s₁.min_bucket < s.min_bucket := by
        rw [hgrown.min_bucket, merged_min_bucket, merged_bucket_size]
        exact sub_lt_self _ (mul_pos (by omega) h.pos)
      have hup : s.top < s₁.top := by
        rw [hgrown.top_eq, merged_top, merged_length, merged_bucket_size]
        exact lt_add_of_pos_right _ (mul_pos (by omega) h.pos)
      have hlt := hm s s₁ h hshape hcond hdown hup
      obtain ⟨s', hs', hw, hend⟩ := hwhole fuel s.merged
        ⟨hshape, hneg', hmerged, hgrown.grows⟩ (by omega)
      refine ⟨s', ?_, hw.1, hend, hw.2.2.2⟩
      unfold growWhile
      rw [hcond, if_pos rfl, hs₁]
      exact hs'

/-- The loop of `growUp`. -/
theorem upwards_ok (val : ℤ) (h : Shape s) (hmin : s.min_bucket = 0) :
    ∃ s', growWhile (fun s => val ≥ s.max_bucket + s.bucket_size) growUp (val.natAbs + 1) s =
        .ok s' ∧ Shape s' ∧ s'.min_bucket = 0 ∧ val < s'.top ∧ Grows s s' := by
  have htop := h.top_pos
  obtain ⟨s', hs', ⟨hshape, hmin', hgrows⟩, hend⟩ := growWhile_ok
    (fun s => decide (val ≥ s.max_bucket + s.bucket_size))
    (P := fun t => Shape t ∧ t.min_bucket = 0 ∧ Grows s t) (fun t => (val + 1 - t.top).toNat)
    (fun t ht hcond => by
      obtain ⟨hshape, hmin, hgrows⟩ := ht
      obtain ⟨t', ht', hshape', hgrown⟩ := growUp_ok hshape hmin
      have hcond := of_decide_eq_true hcond
      rw [hshape.top_eq] at hcond
      have hup : t.top < t'.top := by
        have htwo := hshape.two_le
        rw [hgrown.top_eq]
        exact lt_add_of_pos_right _ (mul_pos (by omega) hshape.pos)
      refine ⟨t', ht', ⟨hshape', ?_, hgrows.grown hgrown⟩, by omega⟩
      rw [hgrown.min_bucket, hmin, Nat.cast_zero, zero_mul, sub_zero])
    (val.natAbs + 1) ⟨h, hmin, .refl⟩ (by omega)
  have hend := of_decide_eq_false hend
  rw [hshape.top_eq, not_le] at hend
  exact ⟨s', hs', hshape, hmin', hend, hgrows⟩

/-- **The condition on a sample**: no growth outwards with `4 * k + 3` buckets while the first
bucket counts something. -/
def KeepsFirst (s : HistStor) (val : ℤ) : Prop :=
  s.cvec.length % 4 ≠ 3 ∨ s.min_bucket = 0 ∨
    (s.min_bucket ≤ val ∧ val < s.max_bucket + s.bucket_size) ∨ s.cvec.getD 0 0 = 0

instance (s : HistStor) (val : ℤ) : Decidable (KeepsFirst s val) :=
  inferInstanceAs (Decidable (_ ∨ _))

/-- What the first growth for a value merges. -/
def beforeGrowth (s : HistStor) (val : ℤ) : HistStor := if KeepsFirst s val then s else s.merged

theorem beforeGrowth_eq_self {val : ℤ} (h : KeepsFirst s val) :
    s.beforeGrowth val = s := if_pos h

theorem beforeGrowth_eq_merged {val : ℤ} (hmin : s.min_bucket ≠ 0)
    (hval : ¬ (s.min_bucket ≤ val ∧ val < s.max_bucket + s.bucket_size)) :
    s.beforeGrowth val = s.merged := by
  unfold beforeGrowth
  split_ifs with hkeeps
  · refine (merged_eq ?_).symm
    rcases hkeeps with hlen | hzero | hrange | hfirst
    · exact .inl hlen
    · exact absurd hzero hmin
    · exact absurd hrange hval
    · exact .inr hfirst
  · rfl

/-- **`sample` makes room for its value.** -/
theorem makeRoom_ok (h : Shape s) (val : ℤ) :
    ∃ s', s.makeRoom val = .ok s' ∧ Shape s' ∧ s'.min_bucket ≤ val ∧ val < s'.top ∧
      Grows (s.beforeGrowth val) s' := by
  have hmin := h.min_nonpos
  have htop := h.top_pos
  have hdown : ∀ {t : HistStor}, Shape t → t.min_bucket < 0 → val < 0 →
      ∃ s', growWhile (fun s => val < s.min_bucket) growOut (val.natAbs + 1) t = .ok s' ∧
        Shape s' ∧ s'.min_bucket ≤ val ∧ val < s'.top ∧
          Grows (if val < t.min_bucket then t.merged else t) s' := by
    intro t ht hneg hval
    obtain ⟨s', hs', hshape, hend, hgrows⟩ :=
      outwards_ok (fun s => decide (val < s.min_bucket))
        (fun s => (s.min_bucket - val).toNat) (fun u u' _ _ hcond hlt _ => by
          have hcond := of_decide_eq_true hcond
          omega) ht hneg (val.natAbs + 1) (by omega)
    have htop' := hshape.top_pos
    simp only [decide_eq_true_eq] at hgrows
    exact ⟨s', hs', hshape, not_lt.mp (of_decide_eq_false hend), by omega, hgrows⟩
  unfold makeRoom
  split_ifs with hlow hzero hhigh hzero
  · obtain ⟨s₁, hs₁, hshape, hgrown, hneg, hfirst⟩ := growDown_ok h hzero
    obtain ⟨s', hs', hrest⟩ := hdown hshape hneg (by omega)
    rw [merged_eq (.inr hfirst), ite_self] at hrest
    obtain ⟨hshape', hlo, hhi, hgrows⟩ := hrest
    refine ⟨s', ?_, hshape', hlo, hhi, ?_⟩
    · rw [hs₁]
      exact hs'
    · rw [beforeGrowth_eq_self (.inr (.inl hzero))]
      exact Relation.ReflTransGen.trans hgrown.grows hgrows
  · obtain ⟨s', hs', hrest⟩ := hdown h (by omega) (by omega)
    rw [if_pos hlow] at hrest
    rw [beforeGrowth_eq_merged hzero (by omega)]
    exact ⟨s', hs', hrest⟩
  · obtain ⟨s', hs', hshape, hmin', hlt, hgrows⟩ := upwards_ok val h hzero
    rw [beforeGrowth_eq_self (.inr (.inl hzero))]
    exact ⟨s', hs', hshape, by rw [h.top_eq] at hhigh; omega, hlt, hgrows⟩
  · obtain ⟨s', hs', hshape, hend, hgrows⟩ :=
      outwards_ok (fun s => decide (val ≥ s.max_bucket + s.bucket_size))
        (fun s => (val + 1 - s.top).toNat) (fun t t' ht ht' hcond _ hlt => by
          have hcond := of_decide_eq_true hcond
          rw [ht.top_eq] at hcond
          omega) h (by omega) (val.natAbs + 1) (by omega)
    have hend := of_decide_eq_false hend
    rw [hshape.top_eq, not_le] at hend
    rw [if_pos (decide_eq_true hhigh)] at hgrows
    rw [beforeGrowth_eq_merged hzero (by omega)]
    refine ⟨s', hs', hshape, ?_, hend, hgrows⟩
    have hmin' := hshape.min_nonpos
    rw [h.top_eq] at hhigh
    omega
  · rw [beforeGrowth_eq_self (.inr (.inr (.inl ⟨not_lt.mp hlow, not_le.mp hhigh⟩)))]
    refine ⟨s, rfl, h, not_lt.mp hlow, ?_, .refl⟩
    rw [← h.top_eq]
    exact not_le.mp hhigh

/-! ## One sample -/

theorem beforeGrowth_range (s : HistStor) (val : ℤ) :
    (s.beforeGrowth val).min_bucket = s.min_bucket ∧
      (s.beforeGrowth val).bucket_size = s.bucket_size ∧ SameSums s (s.beforeGrowth val) := by
  unfold beforeGrowth merged
  split_ifs
  · exact ⟨rfl, rfl, rfl, rfl, rfl, rfl⟩
  · exact ⟨rfl, rfl, List.length_set, rfl, rfl, rfl⟩
  · exact ⟨rfl, rfl, rfl, rfl, rfl, rfl⟩

theorem beforeGrowth_within (val : ℤ) (hw : Within s l) :
    Within (s.beforeGrowth val) l := by
  obtain ⟨hmin, hsize, hsums⟩ := beforeGrowth_range s val
  unfold Within
  rw [hmin, hsize, hsums.length]
  exact hw

/-- The bucket of a value. -/
theorem index_iff (hpos : 0 < s.bucket_size) (val i : ℤ) :
    i = (val - s.min_bucket) / s.bucket_size ↔ s.min_bucket + i * s.bucket_size ≤ val ∧
      val < s.min_bucket + (i + 1) * s.bucket_size := by
  have hle := Int.le_ediv_iff_mul_le hpos (a := i) (b := val - s.min_bucket)
  have hlt := Int.ediv_lt_iff_lt_mul hpos (a := val - s.min_bucket) (b := i + 1)
  omega

/-- A sample that has found its bucket. -/
structure Counted (t s' : HistStor) (x : ℤ × ℤ) : Prop where
  min_bucket : s'.min_bucket = t.min_bucket
  max_bucket : s'.max_bucket = t.max_bucket
  bucket_size : s'.bucket_size = t.bucket_size
  sum : s'.sum = t.sum + x.1 * x.2
  squares : s'.squares = t.squares + x.1 * x.1 * x.2
  samples : s'.samples = t.samples + x.2
  length : s'.cvec.length = t.cvec.length
  cvec : ∀ i, at_ s'.cvec i =
    if i = (x.1 - t.min_bucket) / t.bucket_size then at_ t.cvec i + x.2 else at_ t.cvec i

theorem Counted.shape {t : HistStor} {x : ℤ × ℤ} (h : Counted t s' x) (ht : Shape t) :
    Shape s' := by
  refine ⟨h.length ▸ ht.two_le, h.bucket_size ▸ ht.pos, ?_, ?_⟩
  · rw [h.max_bucket, h.min_bucket, h.length, h.bucket_size]
    exact ht.max_bucket
  · rw [h.min_bucket, h.length, h.bucket_size]
    exact ht.min_bucket

theorem Counted.counts {t : HistStor} {x : ℤ × ℤ} (h : Counted t s' x) (hpos : 0 < t.bucket_size)
    (hx : t.min_bucket ≤ x.1 ∧ x.1 < t.top) (hw : Within t l) :
    Within s' (l ++ [x]) ∧ (Counts t l → Counts s' (l ++ [x])) := by
  have hw' : Within s' (l ++ [x]) := by
    unfold Within
    rw [h.min_bucket, h.bucket_size, h.length]
    intro y hy
    rcases List.mem_append.mp hy with hy | hy
    · exact hw y hy
    · exact List.mem_singleton.mp hy ▸ hx
  refine ⟨hw', fun hc => ?_⟩
  rw [counts_iff (h.bucket_size ▸ hpos) hw']
  rw [counts_iff hpos hw] at hc
  intro i
  rw [h.cvec, h.min_bucket, h.bucket_size, count_append, count_cons, count_nil, add_zero, ← hc i]
  by_cases hi : i = (x.1 - t.min_bucket) / t.bucket_size
  · rw [if_pos hi, if_pos ((index_iff hpos x.1 i).mp hi)]
  · rw [if_neg hi, if_neg fun hin => hi ((index_iff hpos x.1 i).mpr hin), add_zero]

/-- **The assertions of `sample` hold.** -/
theorem sample_ok (h : Shape s) (x : ℤ × ℤ) :
    ∃ t s', s.sample x.1 x.2 = .ok s' ∧ Shape t ∧ t.min_bucket ≤ x.1 ∧ x.1 < t.top ∧
      Grows (s.beforeGrowth x.1) t ∧ Counted t s' x := by
  have htwo := h.two_le
  obtain ⟨t, ht, hshape, hlo, hhi, hgrows⟩ := makeRoom_ok h x.1
  have hrange : s.min_bucket < s.max_bucket := by
    rw [h.max_bucket]
    exact lt_add_of_pos_right _ (mul_pos (by omega) h.pos)
  have hindex : 0 ≤ (x.1 - t.min_bucket) / t.bucket_size ∧
      (x.1 - t.min_bucket) / t.bucket_size < t.cvec.length := by
    unfold top at hhi
    exact ⟨Int.ediv_nonneg (by omega) hshape.pos.le,
      Int.ediv_lt_of_lt_mul hshape.pos (by omega)⟩
  obtain ⟨cvec, hwrite, hlen, hat⟩ := write_ok HistFail.outOfBounds hindex.1 hindex.2
    (at_ t.cvec ((x.1 - t.min_bucket) / t.bucket_size) + x.2)
  refine ⟨t, { t with
    cvec := cvec
    sum := t.sum + x.1 * x.2
    squares := t.squares + x.1 * x.1 * x.2
    samples := t.samples + x.2 }, ?_, hshape, hlo, hhi, hgrows,
    rfl, rfl, rfl, rfl, rfl, rfl, hlen, fun i => ?_⟩
  · unfold sample HistStor.read HistStor.write
    rw [require_ok (decide_eq_true hrange), ht]
    dsimp only [bind, Except.bind]
    rw [require_ok (decide_eq_true hshape.pos), require_ok (decide_eq_true hindex),
      read_ok _ hindex.1 hindex.2]
    dsimp only
    rw [hwrite]
    rfl
  · rw [hat]
    by_cases hi : i = (x.1 - t.min_bucket) / t.bucket_size
    · rw [if_pos hi, if_pos hi, hi]
    · rw [if_neg hi, if_neg hi]

/-- **One sample**, in a storage that holds samples before. -/
theorem sample_counts (h : Shape s) (x : ℤ × ℤ) :
    ∃ s', s.sample x.1 x.2 = .ok s' ∧ Shape s' ∧ s'.cvec.length = s.cvec.length ∧
      s'.samples = s.samples + x.2 ∧
        ∀ l, Within s l → Within s' (l ++ [x]) ∧
          (Counts (s.beforeGrowth x.1) l → Counts s' (l ++ [x])) := by
  obtain ⟨t, s', hs', hshape, hlo, hhi, hgrows, hcounted⟩ := sample_ok h x
  obtain ⟨-, hsize, hsums⟩ := beforeGrowth_range s x.1
  refine ⟨s', hs', hcounted.shape hshape, ?_, ?_, fun l hw => ?_⟩
  · rw [hcounted.length, hgrows.sameSums.length, hsums.length]
  · rw [hcounted.samples, hgrows.sameSums.samples, hsums.samples]
  · obtain ⟨-, hw', hc⟩ := hgrows.counts (hsize ▸ h.pos) (beforeGrowth_within x.1 hw)
    obtain ⟨hw'', hc'⟩ := hcounted.counts hshape.pos ⟨hlo, hhi⟩ hw'
    exact ⟨hw'', fun hcounts => hc' (hc hcounts)⟩

/-! ## Sequences of samples -/

/-- The step of a sequence. -/
def step (s : HistStor) (x : ℤ × ℤ) : Except HistFail HistStor := s.sample x.1 x.2

theorem sampleAll_eq (s : HistStor) (l : List (ℤ × ℤ)) : s.sampleAll l = run step s l := rfl

/-- **A sequence of samples** ends without a failed assertion, and the range holds them all.  If no
sample finds the first bucket in the way, the buckets count them all. -/
theorem sampleAll_ok (h : Shape s) {done : List (ℤ × ℤ)} (hw : Within s done)
    (hsum : s.samples = total done) (l : List (ℤ × ℤ)) :
    ∃ s', s.sampleAll l = .ok s' ∧ Shape s' ∧ s'.cvec.length = s.cvec.length ∧
      Within s' (done ++ l) ∧ s'.samples = total (done ++ l) ∧
        (Counts s done → Admitted (fun s x => KeepsFirst s x.1) step s l →
          Counts s' (done ++ l)) := by
  induction l generalizing s done with
  | nil =>
    rw [List.append_nil]
    exact ⟨s, rfl, h, rfl, hw, hsum, fun hc _ => hc⟩
  | cons x l ih =>
    obtain ⟨s₁, hs₁, hshape, hlen, hsamples, hcounts⟩ := sample_counts h x
    obtain ⟨hw₁, hc₁⟩ := hcounts done hw
    have hsum₁ : s₁.samples = total (done ++ [x]) := by
      rw [hsamples, hsum, total_append, total_cons, total_nil, add_zero]
    obtain ⟨s', hs', hshape', hlen', hw', hsum', hc'⟩ := ih hshape hw₁ hsum₁
    rw [List.append_assoc, List.singleton_append] at hw' hsum' hc'
    refine ⟨s', ?_, hshape', hlen'.trans hlen, hw', hsum', fun hc hadm => ?_⟩
    · rw [sampleAll_eq, run_cons_ok l hs₁]
      exact hs'
    · refine hc' (hc₁ ?_) (hadm.2 s₁ hs₁)
      rw [beforeGrowth_eq_self hadm.1]
      exact hc

/-- The buckets together. -/
theorem Counts.sum_cvec (hpos : 0 < s.bucket_size) (hw : Within s l) (hc : Counts s l) :
    s.cvec.sum = total l := by
  have hmono : Monotone fun i : ℕ => s.min_bucket + i * s.bucket_size :=
    monotone_nat_of_le_succ fun i => by
      rw [Nat.cast_succ, add_mul, one_mul]
      omega
  have hcvec : s.cvec = (List.range s.cvec.length).map fun i : ℕ =>
      count l (s.min_bucket + i * s.bucket_size)
        (s.min_bucket + ((i + 1 : ℕ) : ℤ) * s.bucket_size) := by
    refine List.ext_getElem (by rw [List.length_map, List.length_range]) fun i hi _ => ?_
    rw [List.getElem_map, List.getElem_range, hc i hi, Nat.cast_succ]
  have hall := sum_count hmono l s.cvec.length
  rw [← hcvec, Nat.cast_zero, zero_mul, add_zero] at hall
  rw [hall]
  exact count_eq_total hw

/-- **Samples that are missing**: the buckets count less than was sampled. -/
def Short (s : HistStor) : Prop :=
  ∃ kept : List (ℤ × ℤ), (∀ x ∈ kept, 0 ≤ x.2) ∧ Within s kept ∧ Counts s kept ∧
    total kept < s.samples

theorem Short.sum_ne (h : Shape s) (hs : Short s) : s.cvec.sum ≠ s.samples := by
  obtain ⟨kept, -, hw, hc, hlt⟩ := hs
  rw [hc.sum_cvec h.pos hw]
  exact hlt.ne

/-- What a growth keeps of the samples counted before. -/
theorem beforeGrowth_counts (h : Shape s) (val : ℤ) (hn : ∀ x ∈ l, 0 ≤ x.2) (hw : Within s l)
    (hc : Counts s l) :
    ∃ kept : List (ℤ × ℤ), (∀ x ∈ kept, 0 ≤ x.2) ∧ Within s kept ∧
      Counts (s.beforeGrowth val) kept ∧ total kept ≤ total l ∧
        (¬ KeepsFirst s val → total kept < total l) := by
  by_cases hkeeps : KeepsFirst s val
  · rw [beforeGrowth_eq_self hkeeps]
    exact ⟨l, hn, hw, hc, le_rfl, fun hno => absurd hkeeps hno⟩
  · have htwo := h.two_le
    have hpos := h.pos
    have hlen : s.cvec.length % 4 = 3 := by
      by_contra hne
      exact hkeeps (.inl hne)
    have hfirst : s.cvec.getD 0 0 ≠ 0 := fun hzero => hkeeps (.inr (.inr (.inr hzero)))
    have hkept : Within s (notBelow (s.min_bucket + s.bucket_size) l) := fun x hx =>
      hw x (mem_notBelow.mp hx).1
    have hzero : s.cvec.getD 0 0 = count l s.min_bucket (s.min_bucket + s.bucket_size) := by
      have h0 := (counts_iff hpos hw).mp hc 0
      rw [zero_mul, add_zero, zero_add, one_mul] at h0
      exact h0
    have hlost : 0 < count l s.min_bucket (s.min_bucket + s.bucket_size) :=
      lt_of_le_of_ne (count_nonneg hn _ _) (hzero ▸ hfirst.symm)
    have htotal : total l = count l s.min_bucket (s.min_bucket + s.bucket_size) +
        total (notBelow (s.min_bucket + s.bucket_size) l) := by
      refine total_notBelow (c := s.top) (by omega) ?_ hw
      refine add_le_add_right ?_ _
      exact le_mul_of_one_le_left hpos.le (by omega)
    refine ⟨notBelow (s.min_bucket + s.bucket_size) l, fun x hx => hn x (mem_notBelow.mp hx).1,
      hkept, ?_, by omega, fun _ => by omega⟩
    unfold beforeGrowth
    rw [if_neg hkeeps, counts_iff (by rw [merged_bucket_size]; exact hpos)
      (by unfold Within; rw [merged_min_bucket, merged_bucket_size, merged_length]; exact hkept)]
    intro i
    rw [at_merged, merged_min_bucket, merged_bucket_size]
    rcases lt_trichotomy i 0 with hneg | rfl | hgt
    · rw [if_neg fun hi => hneg.ne hi.2, at_neg _ hneg, count_eq_zero]
      intro x hx hin
      have hle : (i + 1) * s.bucket_size ≤ 0 :=
        mul_nonpos_of_nonpos_of_nonneg (by omega) hpos.le
      exact absurd (hkept x hx).1 (by omega)
    · rw [if_pos ⟨hlen, rfl⟩, count_eq_zero]
      intro x hx hin
      rw [zero_add, one_mul] at hin
      exact absurd (mem_notBelow.mp hx).2 (not_le.mpr hin.2)
    · have hle : s.bucket_size ≤ i * s.bucket_size := le_mul_of_one_le_left hpos.le (by omega)
      rw [if_neg fun hi => hgt.ne' hi.2, count_notBelow (by omega)]
      exact (counts_iff hpos hw).mp hc i

/-- A sample that leaves the buckets counting less than was sampled before. -/
theorem short_sample (h : Shape s) {x : ℤ × ℤ} (hx : 0 ≤ x.2) {kept : List (ℤ × ℤ)}
    (hn : ∀ y ∈ kept, 0 ≤ y.2) (hw : Within s kept) (hc : Counts (s.beforeGrowth x.1) kept)
    (hlt : total kept < s.samples) (hs' : s.sample x.1 x.2 = .ok s') : Short s' := by
  obtain ⟨t, ht, -, -, hsamples, hcounts⟩ := sample_counts h x
  obtain rfl := Except.ok.inj (hs'.symm.trans ht)
  obtain ⟨hwithin, hcounted⟩ := hcounts kept hw
  refine ⟨kept ++ [x], fun y hy => ?_, hwithin, hcounted hc, ?_⟩
  · rcases List.mem_append.mp hy with hy | hy
    · exact hn y hy
    · exact List.mem_singleton.mp hy ▸ hx
  · rw [hsamples, total_append, total_cons, total_nil, add_zero]
    exact add_lt_add_left hlt _

/-- **Lost samples stay lost.** -/
theorem Short.sampleAll (h : Shape s) (hshort : Short s) (hn : ∀ x ∈ l, 0 ≤ x.2)
    (hs' : s.sampleAll l = .ok s') : Short s' := by
  have hadm : Admitted (fun _ x => 0 ≤ x.2) step s l := admitted_of_forall fun x hx _ => hn x hx
  refine (run_invariant (P := fun t => Shape t ∧ Short t) (fun t x t' ht hx ht' => ?_)
    ⟨h, hshort⟩ hadm hs').2
  obtain ⟨hshape, kept, hn, hw, hc, hlt⟩ := ht
  obtain ⟨kept', hn', hw', hc', hle, -⟩ := beforeGrowth_counts hshape x.1 hn hw hc
  obtain ⟨u, hu, hshape', -⟩ := sample_counts hshape x
  obtain rfl := Except.ok.inj (ht'.symm.trans hu)
  exact ⟨hshape', short_sample hshape hx hn' hw' hc' (hle.trans_lt hlt) ht'⟩

/-- **A sample that finds the first bucket in the way** loses what that bucket has counted. -/
theorem short_of_not_admitted (h : Shape s) {done : List (ℤ × ℤ)} (hn : ∀ x ∈ done ++ l, 0 ≤ x.2)
    (hw : Within s done) (hc : Counts s done) (hsum : s.samples = total done)
    (hadm : ¬ Admitted (fun s x => KeepsFirst s x.1) step s l) (hs' : s.sampleAll l = .ok s') :
    Short s' := by
  induction l generalizing s done with
  | nil => exact absurd trivial hadm
  | cons x l ih =>
    have hx := hn x (List.mem_append_right _ List.mem_cons_self)
    obtain ⟨s₁, hs₁, hshape, -, hsamples, hcounts⟩ := sample_counts h x
    rw [sampleAll_eq, run_cons_ok l hs₁] at hs'
    by_cases hkeeps : KeepsFirst s x.1
    · obtain ⟨hw₁, hc₁⟩ := hcounts done hw
      rw [beforeGrowth_eq_self hkeeps] at hc₁
      refine ih hshape ?_ hw₁ (hc₁ hc) ?_ (fun hrest => hadm ⟨hkeeps,
        fun t ht => ?_⟩) hs'
      · rw [List.append_assoc]
        exact hn
      · rw [hsamples, hsum, total_append, total_cons, total_nil, add_zero]
      · obtain rfl := Except.ok.inj (hs₁.symm.trans ht)
        exact hrest
    · obtain ⟨kept, hn', hw', hc', -, hlt⟩ := beforeGrowth_counts h x.1
        (fun y hy => hn y (List.mem_append_left _ hy)) hw hc
      refine Short.sampleAll hshape
        (short_sample h hx hn' hw' hc' (hsum ▸ hlt hkeeps) hs₁) (fun y hy => ?_) hs'
      exact hn y (List.mem_append_right _ (List.mem_cons_of_mem x hy))

/-! ## Histograms -/

/-- **No sample is lost**: what the buckets are to count. -/
structure NoSampleLost (s : HistStor) (l : List (ℤ × ℤ)) : Prop where
  max_bucket : s.max_bucket = s.min_bucket + (s.cvec.length - 1) * s.bucket_size
  boundary : ∃ i : ℕ, i < s.cvec.length ∧ s.min_bucket + i * s.bucket_size = 0
  counts : Counts s l
  sum_cvec : s.cvec.sum = s.samples

theorem reset_shape {buckets size : ℕ} (h : params buckets = .ok size) :
    Shape (reset size) ∧ (reset size).cvec.length = size := by
  unfold params at h
  obtain ⟨_, htwo, h⟩ := bind_eq_ok.mp h
  obtain rfl := Except.ok.inj h
  have htwo := of_decide_eq_true (require_eq_ok.mp htwo)
  have hlen : (reset buckets).cvec.length = buckets := List.length_replicate
  refine ⟨⟨htwo.trans_eq hlen.symm, Int.one_pos, ?_, .inl rfl⟩, hlen⟩
  rw [hlen]
  show (buckets : ℤ) - 1 = 0 + (buckets - 1) * 1
  ring

theorem reset_counts (size : ℕ) : Within (reset size) [] ∧ Counts (reset size) [] := by
  refine ⟨fun x hx => absurd hx List.not_mem_nil, fun i hi => ?_⟩
  exact List.getElem_replicate _

theorem Shape.boundary (h : Shape s) :
    ∃ i : ℕ, i < s.cvec.length ∧ s.min_bucket + i * s.bucket_size = 0 := by
  have htwo := h.two_le
  rcases h.min_bucket with hmin | hmin
  · exact ⟨0, by omega, by rw [hmin, Nat.cast_zero, zero_mul, add_zero]⟩
  · exact ⟨s.cvec.length / 2, by omega, by rw [hmin, neg_add_cancel]⟩

/-- **A histogram loses no sample** if and only if the number of buckets is not of the form `4 * k +
3` or the first bucket was empty whenever the range has grown to both sides.  Every sequence of
samples ends without a failed assertion. -/
theorem noSampleLost_iff {buckets size : ℕ} (hp : params buckets = .ok size)
    {l : List (ℤ × ℤ)} (hn : ∀ x ∈ l, 0 ≤ x.2) :
    ∃ s, (reset size).sampleAll l = .ok s ∧
      (NoSampleLost s l ↔ Admitted (fun s x => KeepsFirst s x.1) step (reset size) l) := by
  obtain ⟨hshape, -⟩ := reset_shape hp
  obtain ⟨hw, hc⟩ := reset_counts size
  obtain ⟨s, hs, hshape', -, hw', hsum, hcounts⟩ := sampleAll_ok hshape hw rfl l
  refine ⟨s, hs, fun hno => ?_, fun hadm => ?_⟩
  · by_contra hadm
    exact (short_of_not_admitted hshape hn hw hc rfl hadm hs).sum_ne hshape' hno.sum_cvec
  · have hcounts := hcounts hc hadm
    exact ⟨hshape'.max_bucket, hshape'.boundary, hcounts,
      (hcounts.sum_cvec hshape'.pos hw').trans hsum.symm⟩

theorem noSampleLost_five :
    ∃ s, (reset 5).sampleAll [(4, 33), (-12, 4), (-20, 1)] = .ok s ∧
      (NoSampleLost s [(4, 33), (-12, 4), (-20, 1)] ↔
        Admitted (fun s x => KeepsFirst s x.1) step (reset 5) [(4, 33), (-12, 4), (-20, 1)]) :=
  noSampleLost_iff (show params 5 = .ok 5 from rfl) (by decide)

/-- **A lost sample**: with three buckets the second growth to both sides drops the sample of -1. -/
theorem sample_lost : ∃ s, (reset 3).sampleAll [(-1, 1), (-10, 1)] = .ok s ∧
    ¬ NoSampleLost s [(-1, 1), (-10, 1)] := by
  have hrun : ∃ s, (reset 3).sampleAll [(-1, 1), (-10, 1)] = .ok s ∧
      s.cvec.sum ≠ s.samples := by decide +kernel
  obtain ⟨s, hs, hne⟩ := hrun
  exact ⟨s, hs, fun h => hne h.sum_cvec⟩

end HistStor

end Gem5.Statistics
