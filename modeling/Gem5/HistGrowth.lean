/-
# How a histogram grows

Every growing operation merges the buckets `2 * i - d` and `2 * i - d + 1` into bucket `i`, where
`d` says how far the lower bound of the range moves (`Grown`); `growOut` has dropped the first
bucket before when the number of buckets is of the form `4 * k + 3`.  A merged histogram counts the
samples that the one before has counted (`Grown.counts`).
-/
import Gem5.HistStor
import Gem5.Binning

open Runs Binning IntIndex

namespace Gem5.Statistics

namespace HistStor

/-! ## Emptying -/

/-- Emptied buckets. -/
theorem at_clear (cvec : List ℤ) {first last : ℕ} (hle : first ≤ last) :
    (clear first last cvec).length = cvec.length ∧
      ∀ x, at_ (clear first last cvec) x =
        if (first : ℤ) ≤ x ∧ x < last then 0 else at_ cvec x := by
  induction last, hle using Nat.le_induction with
  | base =>
    unfold clear
    rw [Nat.sub_self]
    exact ⟨rfl, fun x => (if_neg fun h => absurd (h.1.trans_lt h.2) (lt_irrefl _)).symm⟩
  | succ last hle ih =>
    have hstep : clear first (last + 1) cvec = (clear first last cvec).set last 0 := by
      unfold clear
      rw [Nat.succ_sub hle, List.range'_1_concat, List.foldl_append, Nat.add_sub_cancel' hle]
      rfl
    refine ⟨by rw [hstep, List.length_set, ih.1], fun x => ?_⟩
    rw [hstep, at_set, ite_self, ih.2 x]
    split_ifs <;> first | rfl | omega

/-! ## Merging -/

/-- The vector after the first rounds of a loop that merges buckets. -/
def Merged (dir first : ℤ) (rounds : ℕ) (cvec cvec' : List ℤ) : Prop :=
  cvec'.length = cvec.length ∧
    ∀ x, at_ cvec' x =
      if 0 ≤ dir * (x - first) ∧ dir * (x - first) < rounds then
        at_ cvec (2 * x - first) + at_ cvec (2 * x - first + dir)
      else at_ cvec x

/-- A round reads behind what the rounds before it have written. -/
theorem mergeRound_merged {dir first : ℤ} (hdir : dir = 1 ∨ dir = -1) {n : ℕ}
    {cvec₀ cvec : List ℤ} (h : Merged dir first n cvec₀ cvec)
    (hfirst : 0 ≤ first ∧ first < cvec₀.length)
    (hpair : 0 ≤ first + 2 * dir * n ∧ first + 2 * dir * n < cvec₀.length) :
    ∃ cvec', mergeRound dir (first + dir * n) (first + 2 * dir * n) cvec = .ok cvec' ∧
      Merged dir first (n + 1) cvec₀ cvec' := by
  obtain ⟨hlen, hat⟩ := h
  have hi : 0 ≤ first + dir * n ∧ first + dir * n < cvec.length := by
    rw [hlen]
    rcases hdir with rfl | rfl <;> omega
  have hpair' : first + 2 * dir * n < cvec.length := hlen ▸ hpair.2
  obtain ⟨cvec₁, hwrite, hlen₁, hat₁⟩ :=
    write_ok HistFail.outOfBounds hi.1 hi.2 (at_ cvec (first + 2 * dir * n))
  have hlow : at_ cvec (first + 2 * dir * n) = at_ cvec₀ (first + 2 * dir * n) := by
    rw [hat]
    refine if_neg ?_
    rcases hdir with rfl | rfl <;> omega
  have hhigh : at_ cvec₁ (first + 2 * dir * n + dir) = at_ cvec₀ (first + 2 * dir * n + dir) := by
    rw [hat₁, if_neg (by rcases hdir with rfl | rfl <;> omega), hat]
    refine if_neg ?_
    rcases hdir with rfl | rfl <;> omega
  unfold mergeRound HistStor.read HistStor.write
  rw [read_ok _ hpair.1 hpair']
  dsimp only [bind, Except.bind]
  rw [hwrite]
  dsimp only
  split_ifs with hguard
  · rw [read_ok _ hi.1 (hlen₁ ▸ hi.2), read_ok _ hguard.1 hguard.2]
    obtain ⟨cvec₂, hwrite₂, hlen₂, hat₂⟩ := write_ok HistFail.outOfBounds hi.1 (hlen₁ ▸ hi.2)
      (at_ cvec₁ (first + dir * n) + at_ cvec₁ (first + 2 * dir * n + dir))
    refine ⟨cvec₂, hwrite₂, hlen₂.trans (hlen₁.trans hlen), fun x => ?_⟩
    rw [hat₂, hat₁ x, hat₁ (first + dir * n), if_pos rfl, hlow, hhigh, hat x]
    by_cases hx : x = first + dir * n
    · rw [if_pos hx, if_pos (by rcases hdir with rfl | rfl <;> omega), hx]
      congr 2 <;> ring
    · rw [if_neg hx, if_neg hx]
      exact if_congr (by rcases hdir with rfl | rfl <;> omega) rfl rfl
  · -- the bucket at the end has no other one to merge with
    have hend : at_ cvec₀ (first + 2 * dir * n + dir) = 0 := by
      rw [hlen₁, hlen, not_and_or, not_le, not_lt] at hguard
      rcases hguard with hneg | hle
      · exact at_neg _ hneg
      · exact at_of_length_le hle
    refine ⟨cvec₁, rfl, hlen₁.trans hlen, fun x => ?_⟩
    rw [hat₁, hlow, hat x]
    by_cases hx : x = first + dir * n
    · rw [if_pos hx, if_pos (by rcases hdir with rfl | rfl <;> omega), hx]
      have hpair₁ : 2 * (first + dir * n) - first = first + 2 * dir * n := by ring
      rw [hpair₁, hend, add_zero]
    · rw [if_neg hx]
      exact if_congr (by rcases hdir with rfl | rfl <;> omega) rfl rfl

/-- **The loops that merge buckets.** -/
theorem merge_ok {dir : ℤ} (hdir : dir = 1 ∨ dir = -1) (first : ℤ) (rounds : ℕ) {cvec : List ℤ}
    (hfirst : rounds ≠ 0 → 0 ≤ first ∧ first < cvec.length)
    (hpairs : ∀ n : ℕ, n < rounds → 0 ≤ first + 2 * dir * n ∧ first + 2 * dir * n < cvec.length) :
    ∃ cvec', merge dir first rounds cvec = .ok (cvec', first + 2 * dir * rounds) ∧
      Merged dir first rounds cvec cvec' := by
  obtain ⟨cvec', hfold, hmerged⟩ := foldlM_range (P := fun n => Merged dir first n cvec)
    (f := fun cvec n => mergeRound dir (first + dir * n) (first + 2 * dir * n) cvec) (n := rounds)
    ⟨rfl, fun x => (if_neg fun h => absurd (h.1.trans_lt h.2) (lt_irrefl _)).symm⟩
    fun n hn _ ht => mergeRound_merged hdir ht (hfirst (Nat.ne_zero_of_lt hn)) (hpairs n hn)
  refine ⟨cvec', ?_, hmerged⟩
  unfold merge
  rw [hfold]
  rfl

/-! ## The growing operations -/

/-- The range as the operations leave it: zero is the lower bound of the first or the middle
bucket. -/
structure Shape (s : HistStor) : Prop where
  two_le : 2 ≤ s.cvec.length
  pos : 0 < s.bucket_size
  max_bucket : s.max_bucket = s.min_bucket + (s.cvec.length - 1) * s.bucket_size
  min_bucket : s.min_bucket = 0 ∨ s.min_bucket = -((s.cvec.length / 2 : ℕ) * s.bucket_size)

/-- **Merging.**  The buckets of `s` in pairs, with the lower bound `d` buckets further down. -/
structure Grown (s s' : HistStor) (d : ℕ) : Prop where
  length : s'.cvec.length = s.cvec.length
  bucket_size : s'.bucket_size = 2 * s.bucket_size
  min_bucket : s'.min_bucket = s.min_bucket - d * s.bucket_size
  moved : d ≤ s.cvec.length
  sum : s'.sum = s.sum
  squares : s'.squares = s.squares
  samples : s'.samples = s.samples
  cvec : ∀ i, at_ s'.cvec i = at_ s.cvec (2 * i - d) + at_ s.cvec (2 * i - d + 1)

theorem growUp_ok {s : HistStor} (h : Shape s) (hmin : s.min_bucket = 0) :
    ∃ s', s.growUp = .ok s' ∧ Shape s' ∧ Grown s s' 0 := by
  have htwo := h.two_le
  have hmax := h.max_bucket
  obtain ⟨cvec, hmerge, hlen, hat⟩ := merge_ok (.inl rfl) 0 ((s.cvec.length + 1) / 2)
    (fun _ => show 0 ≤ 0 ∧ 0 < (s.cvec.length : ℤ) by omega) fun n hn => by omega
  obtain ⟨hlen', hat'⟩ := at_clear cvec
    (show (s.cvec.length + 1) / 2 ≤ s.cvec.length by omega)
  unfold growUp
  dsimp only [bind, Except.bind]
  rw [hmerge]
  dsimp only
  rw [require_ok (decide_eq_true (by omega))]
  refine ⟨_, rfl, ⟨?_, ?_, ?_, .inl hmin⟩, ?_, Int.mul_comm _ _, ?_, Nat.zero_le _, rfl, rfl, rfl,
    fun i => ?_⟩
  · exact htwo.trans_eq (hlen'.trans hlen).symm
  · exact mul_pos h.pos (by decide)
  · rw [hlen', hlen, hmax, hmin]
    ring
  · exact hlen'.trans hlen
  · rw [Nat.cast_zero, zero_mul, sub_zero]
  · rw [Nat.cast_zero, sub_zero, hat', hat]
    rcases lt_or_ge i 0 with hi | hi
    · rw [if_neg (by omega), if_neg (by omega), at_neg _ hi, at_neg _ (by omega),
        at_neg _ (by omega)]
      rfl
    · rcases lt_or_ge i ((s.cvec.length + 1) / 2 : ℕ) with hlt | hge
      · rw [if_neg (by omega), if_pos (by omega), sub_zero]
      · rw [at_of_length_le (i := 2 * i) (by omega), at_of_length_le (i := 2 * i + 1) (by omega)]
        split_ifs
        · rfl
        · omega
        · exact at_of_length_le (by omega)

/-- The range after `growDown`, which depends on the parity of the number of buckets. -/
theorem growDown_range {s : HistStor} (h : Shape s) (hmin : s.min_bucket = 0) (even : Bool)
    (heven : even = decide ((s.cvec.length - 1) % 2 = 0)) :
    (if even then -s.max_bucket else -s.max_bucket - s.bucket_size) =
        -((2 * (s.cvec.length / 2) : ℕ) * s.bucket_size) ∧
      (if even then s.max_bucket else s.max_bucket - s.bucket_size) =
        -((2 * (s.cvec.length / 2) : ℕ) * s.bucket_size) +
          (s.cvec.length - 1) * (s.bucket_size * 2) := by
  have htwo := h.two_le
  rw [h.max_bucket, hmin, heven]
  by_cases hodd : (s.cvec.length - 1) % 2 = 0
  · have hlen : (s.cvec.length : ℤ) = (2 * (s.cvec.length / 2) : ℕ) + 1 := by omega
    generalize ((2 * (s.cvec.length / 2) : ℕ) : ℤ) = k at hlen ⊢
    rw [decide_eq_true hodd, if_pos rfl, if_pos rfl, hlen]
    constructor <;> ring
  · have hlen : (s.cvec.length : ℤ) = (2 * (s.cvec.length / 2) : ℕ) := by omega
    generalize ((2 * (s.cvec.length / 2) : ℕ) : ℤ) = k at hlen ⊢
    rw [decide_eq_false hodd, if_neg Bool.false_ne_true, if_neg Bool.false_ne_true, hlen]
    constructor <;> ring

theorem growDown_ok {s : HistStor} (h : Shape s) (hmin : s.min_bucket = 0) :
    ∃ s', s.growDown = .ok s' ∧ Shape s' ∧ Grown s s' (2 * (s.cvec.length / 2)) ∧
      s'.min_bucket < 0 ∧ at_ s'.cvec 0 = 0 := by
  have htwo := h.two_le
  obtain ⟨hmin', hmax'⟩ := growDown_range h hmin _ rfl
  have hpair : (if decide ((s.cvec.length - 1) % 2 = 0) = true then s.cvec.length - 1 - 1
      else s.cvec.length - 1) = 2 * (s.cvec.length / 2) - 1 := by
    split_ifs with hodd
    · have hodd := of_decide_eq_true hodd
      omega
    · have hodd := of_decide_eq_false (Bool.eq_false_iff.mpr hodd)
      omega
  obtain ⟨cvec, hmerge, hlen, hat⟩ := merge_ok (.inr rfl)
    (2 * (s.cvec.length / 2) - 1 : ℕ) (2 * (s.cvec.length / 2) - 1 + 1 - s.cvec.length / 2)
    (fun _ => show _ ∧ _ < (s.cvec.length : ℤ) by omega) fun n hn => by omega
  obtain ⟨hlen', hat'⟩ := at_clear cvec (Nat.zero_le (s.cvec.length / 2))
  unfold growDown
  dsimp only [bind, Except.bind]
  rw [hpair, hmerge]
  dsimp only
  refine ⟨_, rfl, ⟨?_, ?_, ?_, .inr ?_⟩, ⟨?_, Int.mul_comm _ _, ?_, by omega, rfl, rfl, rfl,
    fun i => ?_⟩, ?_, ?_⟩
  · exact htwo.trans_eq (hlen'.trans hlen).symm
  · exact mul_pos h.pos (by decide)
  · rw [hlen', hlen, hmin', hmax']
  · rw [hlen', hlen, hmin']
    push_cast
    ring
  · exact hlen'.trans hlen
  · rw [hmin', hmin, zero_sub]
  · rw [hat', hat]
    rcases lt_or_ge i (s.cvec.length / 2 : ℕ) with hbelow | hge
    · have hlow : at_ s.cvec (2 * i - (2 * (s.cvec.length / 2) : ℕ)) = 0 := at_neg _ (by omega)
      have hhigh : at_ s.cvec (2 * i - (2 * (s.cvec.length / 2) : ℕ) + 1) = 0 :=
        at_neg _ (by omega)
      rw [hlow, hhigh]
      split_ifs
      · rfl
      · omega
      · exact at_neg _ (by omega)
    · rcases lt_or_ge i (2 * (s.cvec.length / 2) : ℕ) with hlt | hend
      · have hhigh : 2 * i - (2 * (s.cvec.length / 2) - 1 : ℕ) =
            2 * i - (2 * (s.cvec.length / 2) : ℕ) + 1 := by omega
        have hlow : 2 * i - (2 * (s.cvec.length / 2) : ℕ) + 1 + -1 =
            2 * i - (2 * (s.cvec.length / 2) : ℕ) := by ring
        rw [if_neg (by omega), if_pos (by omega), hhigh, hlow]
        exact Int.add_comm _ _
      · -- with an odd number of buckets the last one stays
        have hhigh : at_ s.cvec (2 * i - (2 * (s.cvec.length / 2) : ℕ) + 1) = 0 :=
          at_of_length_le (by omega)
        rw [if_neg (by omega), if_neg (by omega), hhigh, add_zero]
        rcases eq_or_lt_of_le hend with heq | hlt
        · exact congrArg _ (by omega)
        · rw [at_of_length_le (by omega), at_of_length_le (by omega)]
  · rw [hmin', neg_lt_zero]
    exact mul_pos (by omega) h.pos
  · rw [hat', if_pos (by omega)]

/-- What `growOut` merges: with `4 * k + 3` buckets the first one is left out. -/
def merged (s : HistStor) : HistStor :=
  if s.cvec.length % 4 = 3 then { s with cvec := s.cvec.set 0 0 } else s

theorem merged_length (s : HistStor) : s.merged.cvec.length = s.cvec.length := by
  unfold merged
  split_ifs
  · exact List.length_set
  · rfl

theorem merged_min_bucket (s : HistStor) : s.merged.min_bucket = s.min_bucket := by
  unfold merged
  split_ifs <;> rfl

theorem merged_bucket_size (s : HistStor) : s.merged.bucket_size = s.bucket_size := by
  unfold merged
  split_ifs <;> rfl

theorem at_merged (s : HistStor) (i : ℤ) :
    at_ s.merged.cvec i = if s.cvec.length % 4 = 3 ∧ i = 0 then 0 else at_ s.cvec i := by
  unfold merged
  split_ifs with hlen hi hi
  · rw [at_set, if_pos (by exact_mod_cast hi.2), ite_self]
  · rw [at_set, if_neg fun heq => hi ⟨hlen, by exact_mod_cast heq⟩]
  · exact absurd hi.1 hlen
  · rfl

/-- Nothing is left out when the first bucket is empty. -/
theorem merged_eq {s : HistStor} (h : s.cvec.length % 4 ≠ 3 ∨ at_ s.cvec 0 = 0) :
    s.merged = s := by
  unfold merged
  split_ifs with hlen
  · have hzero := h.resolve_left (not_not_intro hlen)
    have hset : s.cvec.set 0 0 = s.cvec := by
      cases hc : s.cvec with
      | nil => rfl
      | cons x l =>
        rw [hc] at hzero
        rw [List.set_cons_zero]
        exact congrArg (· :: l) hzero.symm
    rw [hset]
  · rfl

theorem growOut_ok {s : HistStor} (h : Shape s) (hmin : s.min_bucket < 0) :
    ∃ s', s.growOut = .ok s' ∧ Shape s' ∧ Grown s.merged s' (s.cvec.length / 2) ∧
      s'.min_bucket < 0 ∧ s'.merged = s' := by
  have htwo := h.two_le
  have hmin' : s.min_bucket = -((s.cvec.length / 2 : ℕ) * s.bucket_size) :=
    h.min_bucket.resolve_left hmin.ne
  obtain ⟨cvec, hmerge, hlen, hat⟩ := merge_ok (.inr rfl)
    (((s.cvec.length / 2 : ℕ) : ℤ) - 1)
    (s.cvec.length / 2 - (s.cvec.length - s.cvec.length / 2) / 2)
    (fun _ => show _ ∧ _ < (s.cvec.length : ℤ) by omega) fun n hn => by omega
  obtain ⟨hlen₁, hat₁⟩ :=
    at_clear cvec (Nat.zero_le ((s.cvec.length - s.cvec.length / 2) / 2))
  obtain ⟨cvec₂, hmerge₂, hlen₂, hat₂⟩ := merge_ok (.inl rfl)
    ((s.cvec.length / 2 : ℕ) : ℤ)
    (s.cvec.length / 2 + (s.cvec.length - s.cvec.length / 2 + 1) / 2 - s.cvec.length / 2)
    (fun _ => show _ ∧ _ < ((clear 0 ((s.cvec.length - s.cvec.length / 2) / 2) cvec).length : ℤ)
      by omega) fun n hn => by omega
  obtain ⟨hlen₃, hat₃⟩ := at_clear cvec₂ (show s.cvec.length / 2 +
    (s.cvec.length - s.cvec.length / 2 + 1) / 2 ≤ s.cvec.length by omega)
  have hlen₃ : _ = s.cvec.length := hlen₃.trans (hlen₂.trans (hlen₁.trans hlen))
  unfold growOut
  dsimp only [bind, Except.bind]
  rw [hmerge]
  dsimp only
  rw [require_ok (decide_eq_true (by omega))]
  dsimp only
  rw [hmerge₂]
  dsimp only
  rw [require_ok (decide_eq_true (by omega))]
  refine ⟨_, rfl, ⟨?_, ?_, ?_, .inr ?_⟩, ⟨?_, ?_, ?_, ?_, ?_, ?_, ?_, fun i => ?_⟩, ?_, ?_⟩
  · exact htwo.trans_eq hlen₃.symm
  · exact mul_pos h.pos (by decide)
  · rw [hlen₃, h.max_bucket]
    ring
  · rw [hlen₃, hmin']
    ring
  · exact hlen₃.trans s.merged_length.symm
  · rw [merged_bucket_size]
    exact Int.mul_comm _ _
  · rw [merged_min_bucket, merged_bucket_size, hmin']
    ring
  · rw [merged_length]
    omega
  · unfold merged
    split_ifs <;> rfl
  · unfold merged
    split_ifs <;> rfl
  · unfold merged
    split_ifs <;> rfl
  · have hold : ∀ x, x ≠ 0 → at_ s.merged.cvec x = at_ s.cvec x := fun x hx => by
      rw [at_merged, if_neg fun h => hx h.2]
    have hupper : ∀ x, ((s.cvec.length / 2 : ℕ) : ℤ) ≤ x →
        at_ (clear 0 ((s.cvec.length - s.cvec.length / 2) / 2) cvec) x = at_ s.cvec x :=
      fun x hx => by rw [hat₁, if_neg (by omega), hat, if_neg (by omega)]
    rw [hat₃, hat₂]
    rcases lt_or_ge i ((s.cvec.length - s.cvec.length / 2) / 2 : ℕ) with hbelow | hbottom
    · -- emptied at the lower end, and behind it there is at most the first bucket
      have hlow : at_ s.merged.cvec (2 * i - (s.cvec.length / 2 : ℕ)) = 0 := at_neg _ (by omega)
      have hhigh : at_ s.merged.cvec (2 * i - (s.cvec.length / 2 : ℕ) + 1) = 0 := by
        rcases lt_or_ge (2 * i - (s.cvec.length / 2 : ℕ) + 1) 0 with hneg | hpos
        · exact at_neg _ hneg
        · rw [at_merged, if_pos ⟨by omega, by omega⟩]
      rw [hlow, hhigh, if_neg (by omega), if_neg (by omega), hat₁]
      split_ifs
      · rfl
      · rw [hat, if_neg (by omega)]
        exact at_neg _ (by omega)
    · rcases lt_or_ge i (s.cvec.length / 2 : ℕ) with hlower | hzero
      · have hhigh : 2 * i - (((s.cvec.length / 2 : ℕ) : ℤ) - 1) =
            2 * i - (s.cvec.length / 2 : ℕ) + 1 := by ring
        have hlow : 2 * i - (s.cvec.length / 2 : ℕ) + 1 + -1 =
            2 * i - (s.cvec.length / 2 : ℕ) := by ring
        rw [if_neg (by omega), if_neg (by omega), hat₁, if_neg (by omega), hat, if_pos (by omega),
          hhigh, hlow]
        rw [at_merged, if_neg (by omega), at_merged, if_neg (by omega)]
        exact Int.add_comm _ _
      · rw [hold _ (by omega), hold _ (by omega), hupper i hzero, hupper _ (by omega),
          hupper _ (by omega)]
        rcases lt_or_ge i (s.cvec.length / 2 + (s.cvec.length - s.cvec.length / 2 + 1) / 2 : ℕ)
          with hlt | htop
        · rw [if_neg (by omega), if_pos (by omega)]
        · have hlow : at_ s.cvec (2 * i - (s.cvec.length / 2 : ℕ)) = 0 :=
            at_of_length_le (by omega)
          have hhigh : at_ s.cvec (2 * i - (s.cvec.length / 2 : ℕ) + 1) = 0 :=
            at_of_length_le (by omega)
          rw [hlow, hhigh]
          by_cases hend : i < s.cvec.length
          · rw [if_pos ⟨htop, hend⟩]
            rfl
          · rw [if_neg (by omega), if_neg (by omega)]
            exact at_of_length_le (not_lt.mp hend)
  · dsimp only
    omega
  · refine merged_eq ?_
    dsimp only
    rw [hlen₃]
    by_cases hlost : s.cvec.length % 4 = 3
    · rw [hat₃, if_neg (by omega), hat₂, if_neg (by omega), hat₁, if_pos (by omega)]
      exact .inr rfl
    · exact .inl hlost

/-! ## Counts -/

/-- The samples lie in the range. -/
def Within (s : HistStor) (l : List (ℤ × ℤ)) : Prop :=
  ∀ x ∈ l, s.min_bucket ≤ x.1 ∧ x.1 < s.min_bucket + s.cvec.length * s.bucket_size

/-- **Every bucket counts the samples of its range.** -/
def Counts (s : HistStor) (l : List (ℤ × ℤ)) : Prop :=
  ∀ i (h : i < s.cvec.length), s.cvec[i] =
    count l (s.min_bucket + i * s.bucket_size) (s.min_bucket + (i + 1) * s.bucket_size)

/-- Outside the range there are no buckets and no samples. -/
theorem counts_iff {s : HistStor} {l : List (ℤ × ℤ)} (hpos : 0 < s.bucket_size)
    (hw : Within s l) : Counts s l ↔ ∀ i : ℤ, at_ s.cvec i =
      count l (s.min_bucket + i * s.bucket_size) (s.min_bucket + (i + 1) * s.bucket_size) := by
  constructor
  · intro h i
    rcases lt_or_ge i 0 with hneg | h0
    · rw [at_neg _ hneg, count_eq_zero]
      intro x hx hin
      have hle : (i + 1) * s.bucket_size ≤ 0 :=
        mul_nonpos_of_nonpos_of_nonneg (by omega) hpos.le
      exact absurd (hw x hx).1 (by omega)
    · rcases lt_or_ge i s.cvec.length with hlt | hge
      · obtain ⟨n, rfl⟩ := Int.eq_ofNat_of_zero_le h0
        have hn : n < s.cvec.length := Int.ofNat_lt.mp hlt
        rw [at_natCast, List.getD_eq_getElem _ _ hn]
        exact h n hn
      · rw [at_of_length_le hge, count_eq_zero]
        intro x hx hin
        have hle := mul_le_mul_of_nonneg_right hge hpos.le
        exact absurd (hw x hx).2 (by omega)
  · intro h i hi
    rw [← h i, at_natCast, List.getD_eq_getElem _ _ hi]

/-- The upper end of the range. -/
def top (s : HistStor) : ℤ := s.min_bucket + s.cvec.length * s.bucket_size

theorem merged_top (s : HistStor) : s.merged.top = s.top := by
  rw [top, top, merged_min_bucket, merged_bucket_size, merged_length]

theorem Shape.top_eq {s : HistStor} (h : Shape s) : s.max_bucket + s.bucket_size = s.top := by
  rw [h.max_bucket, top]
  ring

theorem Grown.top_eq {s s' : HistStor} {d : ℕ} (h : Grown s s' d) :
    s'.top = s.top + (s.cvec.length - d) * s.bucket_size := by
  rw [top, top, h.min_bucket, h.bucket_size, h.length]
  ring

theorem Grown.within {s s' : HistStor} {d : ℕ} {l : List (ℤ × ℤ)} (h : Grown s s' d)
    (hpos : 0 < s.bucket_size) (hw : Within s l) : Within s' l := by
  intro x hx
  obtain ⟨hmin, hmax⟩ := hw x hx
  have hdown : 0 ≤ (d : ℤ) * s.bucket_size := mul_nonneg (Int.natCast_nonneg d) hpos.le
  have hup : 0 ≤ ((s.cvec.length : ℤ) - d) * s.bucket_size :=
    mul_nonneg (sub_nonneg.mpr (Int.ofNat_le.mpr h.moved)) hpos.le
  have htop := h.top_eq
  unfold top at htop
  rw [htop, h.min_bucket]
  omega

/-- **Merged buckets count the samples of the merged ranges.** -/
theorem Grown.counts {s s' : HistStor} {d : ℕ} {l : List (ℤ × ℤ)} (h : Grown s s' d)
    (hpos : 0 < s.bucket_size) (hw : Within s l) (hc : Counts s l) : Counts s' l := by
  have hpos' : 0 < s'.bucket_size := h.bucket_size ▸ mul_pos (by decide) hpos
  rw [counts_iff hpos' (h.within hpos hw)]
  rw [counts_iff hpos hw] at hc
  intro i
  have hlow : s'.min_bucket + i * s'.bucket_size =
      s.min_bucket + (2 * i - d) * s.bucket_size := by
    rw [h.min_bucket, h.bucket_size]
    ring
  have hhigh : s'.min_bucket + (i + 1) * s'.bucket_size =
      s.min_bucket + (2 * i - d + 1 + 1) * s.bucket_size := by
    rw [h.min_bucket, h.bucket_size]
    ring
  have hstep : ∀ j : ℤ, s.min_bucket + j * s.bucket_size ≤
      s.min_bucket + (j + 1) * s.bucket_size := fun j => by
    rw [add_mul, one_mul]
    omega
  rw [h.cvec, hc, hc, hlow, hhigh]
  exact (count_split (hstep _) (hstep _) l).symm

end HistStor

end Gem5.Statistics
