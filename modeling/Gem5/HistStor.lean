/-
# The storage of a histogram

`HistStor` of `base/stats/storage.hh`.  A histogram has a fixed number of buckets; their size
doubles when a sample lies out of range.  `growUp`, `growDown` and `growOut` move the counts in
place, two buckets into one.  Arithmetic is exact: a `Counter` with integer values is an integer.
The sum of the logarithms is left out.
-/
import Gem5.IntIndex

open Runs

namespace Gem5.Statistics

/-- The assertions, and an access behind the vector. -/
inductive HistFail where
  | tooFewBuckets
  | outOfBounds
  | lowPair
  | highPair
  | pair
  | range
  | bucketSize
  | index
  | size
  | minBucket
  | diverges
  deriving DecidableEq, Repr

/-- `HistStor` -/
structure HistStor where
  /-- Lower bound of the first bucket's range. -/
  min_bucket : ℤ
  /-- Lower bound of the last bucket's range. -/
  max_bucket : ℤ
  /-- The number of entries in each bucket. -/
  bucket_size : ℤ
  sum : ℤ
  squares : ℤ
  samples : ℤ
  /-- Counter for each bucket. -/
  cvec : List ℤ
  deriving DecidableEq, Repr

namespace HistStor

/-- `Params::Params(_buckets)` -/
def params (_buckets : ℕ) : Except HistFail ℕ := do
  require .tooFewBuckets (2 ≤ _buckets)
  return _buckets

/-- The storage after `reset`. -/
def reset (buckets : ℕ) : HistStor where
  min_bucket := 0
  max_bucket := buckets - 1
  bucket_size := 1
  sum := 0
  squares := 0
  samples := 0
  cvec := List.replicate buckets 0

/-! ## Growing -/

/-- `cvec[i]` -/
def read (cvec : List ℤ) (i : ℤ) : Except HistFail ℤ := IntIndex.read .outOfBounds cvec i

/-- `cvec[i] = v` -/
def write (cvec : List ℤ) (i v : ℤ) : Except HistFail (List ℤ) :=
  IntIndex.write .outOfBounds cvec i v

/-- One round of a loop that merges buckets: bucket `i` gets the counts of `pair` and of the bucket
`dir` further on, if there is one. -/
def mergeRound (dir i pair : ℤ) (cvec : List ℤ) : Except HistFail (List ℤ) := do
  let low ← read cvec pair
  let cvec ← write cvec i low
  if 0 ≤ pair + dir ∧ pair + dir < cvec.length then
    let sum ← read cvec i
    let high ← read cvec (pair + dir)
    write cvec i (sum + high)
  else return cvec

/-- The loops that merge buckets.  From `first` on, `i` goes by `dir` and `pair` by twice as much;
the last value of `pair` is a part of the result. -/
def merge (dir first : ℤ) (rounds : ℕ) (cvec : List ℤ) : Except HistFail (List ℤ × ℤ) := do
  let cvec ← (List.range rounds).foldlM
    (fun cvec (n : ℕ) => mergeRound dir (first + dir * n) (first + 2 * dir * n) cvec) cvec
  return (cvec, first + 2 * dir * rounds)

/-- The loops that empty the buckets from `first` to `last`. -/
def clear (first last : ℕ) (cvec : List ℤ) : List ℤ :=
  (List.range' first (last - first)).foldl (fun cvec i => cvec.set i 0) cvec

/-- `growOut()` -/
def growOut (s : HistStor) : Except HistFail HistStor := do
  let size := s.cvec.length
  let zeroBucket := size / 2
  let top_half := zeroBucket + (size - zeroBucket + 1) / 2
  let bottom_half := (size - zeroBucket) / 2
  -- grow down
  let (cvec, low_pair) ← merge (-1) (zeroBucket - 1) (zeroBucket - bottom_half) s.cvec
  require .lowPair (low_pair = 0 ∨ low_pair = -1 ∨ low_pair = -2)
  let cvec := clear 0 bottom_half cvec
  -- grow up
  let (cvec, high_pair) ← merge 1 zeroBucket (top_half - zeroBucket) cvec
  require .highPair (high_pair = size ∨ high_pair = size + 1)
  let cvec := clear top_half size cvec
  return { s with
    cvec := cvec
    max_bucket := s.max_bucket * 2
    min_bucket := s.min_bucket * 2
    bucket_size := s.bucket_size * 2 }

/-- `growDown()` -/
def growDown (s : HistStor) : Except HistFail HistStor := do
  let size := s.cvec.length
  let zeroBucket := size / 2
  let even : Bool := (size - 1) % 2 = 0
  let pair := if even then size - 1 - 1 else size - 1
  let (cvec, _) ← merge (-1) pair (pair + 1 - zeroBucket) s.cvec
  let cvec := clear 0 zeroBucket cvec
  let min_bucket := -s.max_bucket
  return { s with
    cvec := cvec
    min_bucket := if even then min_bucket else min_bucket - s.bucket_size
    max_bucket := if even then s.max_bucket else s.max_bucket - s.bucket_size
    bucket_size := s.bucket_size * 2 }

/-- `growUp()` -/
def growUp (s : HistStor) : Except HistFail HistStor := do
  let size := s.cvec.length
  let half := (size + 1) / 2
  let (cvec, pair) ← merge 1 0 half s.cvec
  require .pair (pair = size ∨ pair = size + 1)
  let cvec := clear half size cvec
  return { s with
    cvec := cvec
    max_bucket := s.max_bucket * 2
    bucket_size := s.bucket_size * 2 }

/-- A loop that grows while a condition holds, for at most `fuel` tests of it. -/
def growWhile (cond : HistStor → Bool) (grow : HistStor → Except HistFail HistStor) :
    ℕ → HistStor → Except HistFail HistStor
  | 0, _ => .error .diverges
  | fuel + 1, s =>
      if cond s then do
        let s ← grow s
        growWhile cond grow fuel s
      else .ok s

/-! ## Sampling and adding -/

/-- The first part of `sample`, which makes room for a value. -/
def makeRoom (s : HistStor) (val : ℤ) : Except HistFail HistStor :=
  if val < s.min_bucket then do
    let s ← if s.min_bucket = 0 then s.growDown else .ok s
    growWhile (fun s => val < s.min_bucket) growOut (val.natAbs + 1) s
  else if val ≥ s.max_bucket + s.bucket_size then
    if s.min_bucket = 0 then
      growWhile (fun s => val ≥ s.max_bucket + s.bucket_size) growUp (val.natAbs + 1) s
    else
      growWhile (fun s => val ≥ s.max_bucket + s.bucket_size) growOut (val.natAbs + 1) s
  else .ok s

/-- `sample(val, number)`.  A negative index would be a large one, as it is not signed. -/
def sample (s : HistStor) (val number : ℤ) : Except HistFail HistStor := do
  require .range (s.min_bucket < s.max_bucket)
  let s ← s.makeRoom val
  require .bucketSize (0 < s.bucket_size)
  let index := (val - s.min_bucket) / s.bucket_size
  require .index (0 ≤ index ∧ index < s.cvec.length)
  let count ← read s.cvec index
  let cvec ← write s.cvec index (count + number)
  return { s with
    cvec := cvec
    sum := s.sum + val * number
    squares := s.squares + val * val * number
    samples := s.samples + number }

/-- `add(hs)`: the storage and `hs` afterwards. -/
def add (s hs : HistStor) : Except HistFail (HistStor × HistStor) := do
  require .size (s.cvec.length = hs.cvec.length)
  require .minBucket (s.min_bucket = hs.min_bucket)
  let s := { s with
    sum := s.sum + hs.sum
    squares := s.squares + hs.squares
    samples := s.samples + hs.samples }
  let hs ← growWhile (fun hs => s.bucket_size > hs.bucket_size) growUp
    (s.bucket_size.natAbs + 1) hs
  let s ← growWhile (fun s => s.bucket_size < hs.bucket_size) growUp
    (hs.bucket_size.natAbs + 1) s
  return ({ s with cvec := List.zipWith (· + ·) s.cvec hs.cvec }, hs)

/-- A sequence of samples, each a value and how often it is sampled. -/
def sampleAll (s : HistStor) (l : List (ℤ × ℤ)) : Except HistFail HistStor :=
  run (fun s x => s.sample x.1 x.2) s l

end HistStor

end Gem5.Statistics
