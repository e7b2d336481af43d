/-
# Address ranges

Embedding of `AddrRange` (`base/addr_range.hh`): an interval of addresses, possibly
interleaved.  Each mask selects the bits whose exclusive or is one bit of a selector;
the range contains the addresses of the interval whose selector is `intlvMatch`.

The source computes the selector and the interleaving bits with `int` shifts.  A shift
of an `int` by 32 or more positions, or of an `Addr` by 64 or more, has no defined
result; here it is a failure.  The failures also name the panics.
-/
import Gem5.Runs
import Gem5.Bitfield

open Runs

namespace Gem5.Base

/-- What stops the functions of `AddrRange`. -/
inductive Fail where
  /-- a shift by the width of its operand or more -/
  | undefinedShift
  /-- `panic("Cannot test intersection of %s and %s")` -/
  | cannotIntersect
  /-- `panic("Cannot test subset of interleaved range %s")` -/
  | cannotTestSubset
  /-- `fatal("Match value %d does not fit in %d interleaving bits")` -/
  | matchTooLarge
  /-- `fatal("Got %d ranges spanning %d interleaving bits")` -/
  | wrongNumberOfRanges
  /-- `fatal("Can only merge ranges with the same start, end and interleaving bits")` -/
  | cannotMerge
  /-- `fatal("Expected interleave match %d but got %d when merging")` -/
  | unexpectedMatch
  /-- a cached iterator of an erased entry is dereferenced -/
  | danglingIterator
  /-- an iterator that does not belong to the map is passed in -/
  | invalidIterator
  deriving DecidableEq, Repr

/-- `AddrRange` -/
structure AddrRange where
  start : Addr
  end_ : Addr
  masks : List Addr
  intlvMatch : BitVec 8
  deriving DecidableEq, Repr

/-- `AddrRange()` -/
def AddrRange.empty : AddrRange := ⟨1, 0, [], 0⟩

/-- `AddrRange(_start, _end)` -/
def AddrRange.plain (start end_ : Addr) : AddrRange := ⟨start, end_, [], 0⟩

/-- `AddrRange(_start, _end, _masks, _intlv_match)` -/
def AddrRange.ofMasks (start end_ : Addr) (masks : List Addr) (intlvMatch : BitVec 8) :
    Except Fail AddrRange := do
  if masks ≠ [] then
    require .undefinedShift (masks.length < 64)
    require .matchTooLarge (intlvMatch.toNat < 2 ^ masks.length)
  return ⟨start, end_, masks, intlvMatch⟩

/-- `RangeSize(start, size)` -/
def rangeSize (start size : Addr) : AddrRange := AddrRange.plain start (start + size)

def AddrRange.interleaved (r : AddrRange) : Bool := r.masks ≠ []

/-- `size()` -/
def AddrRange.size (r : AddrRange) : Except Fail Addr := do
  require .undefinedShift (r.masks.length < 64)
  return (r.end_ - r.start) >>> r.masks.length

/-- `granularity()`: the masks are combined in an `int`. -/
def AddrRange.granularity (r : AddrRange) : Except Fail Addr :=
  if r.interleaved then do
    let combined := r.masks.foldl (fun c m => ((c.signExtend 64) ||| m).setWidth 32) (0 : BitVec 32)
    let lowestBit := ctz64 (combined.signExtend 64)
    require .undefinedShift (lowestBit < 64)
    return (1#64 <<< lowestBit)
  else r.size

def AddrRange.mergesWith (s r : AddrRange) : Bool :=
  r.start = s.start && r.end_ = s.end_ && r.masks = s.masks

/-! ## Selection -/

/-- The loop of `contains` that accumulates the selector, from bit `i` on. -/
def selLoop (a : Addr) : ℕ → List Addr → BitVec 32 → Except Fail (BitVec 32)
  | _, [], sel => .ok sel
  | i, m :: masks, sel =>
      if i < 32 then
        selLoop a (i + 1) masks (sel ||| (BitVec.ofNat 32 (popCount (a &&& m) % 2) <<< i))
      else .error .undefinedShift

/-- The selector of an address. -/
def AddrRange.sel (r : AddrRange) (a : Addr) : Except Fail (BitVec 32) := selLoop a 0 r.masks 0

/-- `contains(a)` -/
def AddrRange.contains (r : AddrRange) (a : Addr) : Except Fail Bool :=
  if r.start ≤ a ∧ a < r.end_ then do
    let sel ← r.sel a
    return sel = r.intlvMatch.setWidth 32
  else .ok false

/-- `intersects(r)` -/
def AddrRange.intersects (s r : AddrRange) : Except Fail Bool :=
  if r.end_ ≤ s.start ∨ s.end_ ≤ r.start then .ok false
  else if !s.interleaved && !r.interleaved then .ok true
  else do
    let size ← r.size
    if size = 1 then s.contains r.start
    else if s.mergesWith r then return s.intlvMatch = r.intlvMatch
    else .error .cannotIntersect

/-- `isSubset(r)` -/
def AddrRange.isSubset (s r : AddrRange) : Except Fail Bool :=
  if s.interleaved then .error .cannotTestSubset
  else if r.interleaved then do
    let first ← r.contains s.start
    if first = false then return false
    let last ← r.contains (s.end_ - 1)
    if last = false then return false
    let size ← s.size
    let granularity ← r.granularity
    return size ≤ granularity
  else return r.start ≤ s.start && s.end_ ≤ r.end_

/-- `operator<` -/
def AddrRange.lt (s r : AddrRange) : Bool :=
  if s.start ≠ r.start then s.start < r.start
  else if s.interleaved && r.interleaved then s.intlvMatch < r.intlvMatch
  else s.interleaved

/-! ## Interleaving bits -/

/-- The positions of the lowest bits of the masks, sorted. -/
def AddrRange.masksLsb (r : AddrRange) : List ℕ := (r.masks.map ctz64).insertionSort (· ≤ ·)

/-- The loop of `removeIntlvBits`, from index `i` on. -/
def removeLoop : ℕ → List ℕ → Addr → Addr
  | _, [], a => a
  | i, intlvBit :: rest, a =>
      removeLoop (i + 1) rest
        (if intlvBit > 0 then
          insertBits (a >>> 1) (BitVec.ofInt 32 ((intlvBit : ℤ) - i - 1)) 0 a
        else a >>> 1)

/-- `removeIntlvBits(a)` -/
def AddrRange.removeIntlvBits (r : AddrRange) (a : Addr) : Addr :=
  if r.interleaved then removeLoop 0 r.masksLsb a else a

/-- One step of the first loop of `addIntlvBits`. -/
def openBit (intlvBit : ℕ) (a : Addr) : Addr :=
  if intlvBit > 0 then insertBits (a <<< 1) (BitVec.ofInt 32 ((intlvBit : ℤ) - 1)) 0 a
  else a <<< 1

/-- The first loop of `addIntlvBits`. -/
def openLoop (bits : List ℕ) (a : Addr) : Addr := bits.foldl (fun a b => openBit b a) a

/-- `~(1 << lsb)`, an `int` that becomes an `Addr`. -/
def notBit (lsb : ℕ) : Addr := (~~~(1#32 <<< lsb)).signExtend 64

/-- The second loop of `addIntlvBits`, from mask `i` on. -/
def setLoop (intlvMatch : BitVec 8) : ℕ → List Addr → Addr → Except Fail Addr
  | _, [], a => .ok a
  | i, m :: masks, a =>
      if i < 32 ∧ ctz64 m < 32 then
        let lsb := ctz64 m
        let intlvBit : Addr := BitVec.ofNat 64 (intlvMatch.getLsbD i).toNat
        let masked := a &&& m &&& notBit lsb
        setLoop intlvMatch (i + 1) masks
          (insertBits a (BitVec.ofNat 32 lsb) (BitVec.ofNat 32 lsb)
            (intlvBit ^^^ BitVec.ofNat 64 (popCount masked)))
      else .error .undefinedShift

/-- `addIntlvBits(a)` -/
def AddrRange.addIntlvBits (r : AddrRange) (a : Addr) : Except Fail Addr :=
  if r.interleaved then setLoop r.intlvMatch 0 r.masks (openLoop r.masksLsb a) else .ok a

/-! ## Merging -/

/-- The loop over the ranges in the merging constructor; `expected` is a `uint8_t`. -/
def mergeLoop (first : AddrRange) : BitVec 8 → List AddrRange → Except Fail Unit
  | _, [] => .ok ()
  | expected, r :: ranges => do
      require .cannotMerge (first.mergesWith r)
      require .unexpectedMatch (r.intlvMatch = expected)
      mergeLoop first (expected + 1) ranges

/-- `AddrRange(ranges)` -/
def AddrRange.ofRanges (ranges : List AddrRange) : Except Fail AddrRange :=
  match ranges with
  | [] => .ok AddrRange.empty
  | [r] => .ok r
  | first :: _ => do
      require .undefinedShift (first.masks.length < 64)
      require .wrongNumberOfRanges (ranges.length = 2 ^ first.masks.length)
      mergeLoop first 0 ranges
      return AddrRange.plain first.start first.end_

/-! ## What the selector is -/

theorem ofNat_parity (n : ℕ) (k : ℕ) :
    (BitVec.ofNat 32 (n % 2)).getLsbD k = (decide (k = 0) && decide (n % 2 = 1)) := by
  rcases Nat.mod_two_eq_zero_or_one n with h | h
  · rw [h]
    simp
  · rw [h]
    by_cases hk : k = 0
    · subst hk
      decide
    · simp [BitVec.getLsbD_one, hk]

/-- The loop sets the bits from `i` on to the parities of the masked address. -/
theorem selLoop_eq {a : Addr} {masks : List Addr} {i : ℕ} {sel : BitVec 32}
    (hlen : i + masks.length ≤ 32) (hsel : ∀ k, i ≤ k → sel.getLsbD k = false) :
    ∃ s, selLoop a i masks sel = .ok s ∧
      ∀ k, s.getLsbD k =
        if k < i then sel.getLsbD k else ((masks[k - i]?).map fun m => parity (a &&& m)).getD false := by
  induction masks generalizing i sel with
  | nil =>
    refine ⟨sel, rfl, fun k => ?_⟩
    split
    · rfl
    · rename_i hk
      exact hsel k (Nat.le_of_not_lt hk)
  | cons m masks ih =>
    rw [List.length_cons] at hlen
    set sel' := sel ||| (BitVec.ofNat 32 (popCount (a &&& m) % 2) <<< i) with hsel'
    have hbit : ∀ k, sel'.getLsbD k = if k = i then parity (a &&& m) else sel.getLsbD k := by
      intro k
      rw [hsel', BitVec.getLsbD_or, BitVec.getLsbD_shiftLeft, ofNat_parity]
      rcases Nat.lt_trichotomy k i with hk | hk | hk
      · simp [hk, hk.ne]
      · subst hk
        have hlt : k < 32 := by omega
        rw [hsel k (Nat.le_refl k)]
        simp [hlt, parity]
      · have hne : ¬k - i = 0 := by omega
        simp [hne, hk.ne']
    obtain ⟨s, hs, hbits⟩ := ih (i := i + 1) (by omega) (fun k hk =>
      show sel'.getLsbD k = false by rw [hbit k, if_neg (by omega), hsel k (by omega)])
    refine ⟨s, ?_, fun k => ?_⟩
    · unfold selLoop
      rw [if_pos (by omega)]
      exact hs
    · rw [hbits k, hbit k]
      rcases Nat.lt_trichotomy k i with hk | hk | hk
      · rw [if_pos (by omega), if_neg hk.ne, if_pos hk]
      · subst hk
        rw [if_pos (by omega), if_pos rfl, if_neg (by omega), Nat.sub_self]
        rfl
      · have hsub : k - i = k - (i + 1) + 1 := by omega
        rw [if_neg (by omega), if_neg (by omega), hsub, List.getElem?_cons_succ]

/-- With more than 32 masks the selector is not defined. -/
theorem selLoop_error {a : Addr} {masks : List Addr} {i : ℕ} {sel : BitVec 32}
    (hlen : 32 < i + masks.length) (hi : i ≤ 32) :
    selLoop a i masks sel = .error .undefinedShift := by
  induction masks generalizing i sel with
  | nil =>
    rw [List.length_nil] at hlen
    omega
  | cons m masks ih =>
    rw [List.length_cons] at hlen
    unfold selLoop
    split
    · exact ih (by omega) (by omega)
    · rfl

/-- **The selector**: bit `k` is the exclusive or of the bits of mask `k`. -/
theorem sel_eq {r : AddrRange} (hlen : r.masks.length ≤ 32) (a : Addr) :
    ∃ s, r.sel a = .ok s ∧
      ∀ k, s.getLsbD k = ((r.masks[k]?).map fun m => parity (a &&& m)).getD false := by
  obtain ⟨s, hs, hbits⟩ := selLoop_eq (a := a) (i := 0)
    (show 0 + r.masks.length ≤ 32 by omega)
    (fun k _ => show (0 : BitVec 32).getLsbD k = false from BitVec.getLsbD_zero)
  refine ⟨s, hs, fun k => ?_⟩
  rw [hbits k, if_neg (Nat.not_lt_zero k), Nat.sub_zero]

/-- The selector of `a` is the match value of `r`. -/
def AddrRange.Selects (r : AddrRange) (a : Addr) : Prop :=
  ∀ k m, r.masks[k]? = some m → parity (a &&& m) = r.intlvMatch.getLsbD k

theorem getLsbD_intlvMatch_of_fits {v : BitVec 8} {n k : ℕ} (hfit : v.toNat < 2 ^ n) (hk : n ≤ k) :
    v.getLsbD k = false := by
  rw [BitVec.getLsbD]
  apply Nat.testBit_lt_two_pow
  exact hfit.trans_le (Nat.pow_le_pow_right (by decide) hk)

/-- The selector matches when each of its bits does. -/
theorem sel_of_selects {r : AddrRange} {a : Addr} (hlen : r.masks.length ≤ 32)
    (hfit : r.intlvMatch.toNat < 2 ^ r.masks.length) (ha : r.Selects a) :
    r.sel a = .ok (r.intlvMatch.setWidth 32) := by
  obtain ⟨s, hs, hbits⟩ := sel_eq hlen a
  rw [hs, Except.ok.injEq]
  apply BitVec.eq_of_getLsbD_eq
  intro k hk
  rw [hbits k, BitVec.getLsbD_setWidth, decide_eq_true hk, Bool.true_and]
  cases hm : r.masks[k]? with
  | none =>
    have hge : r.masks.length ≤ k := List.getElem?_eq_none_iff.mp hm
    exact (getLsbD_intlvMatch_of_fits hfit hge).symm
  | some m => exact ha k m hm

/-- A selector that was computed and matches. -/
theorem selects_of_sel {r : AddrRange} {a : Addr} (h : r.sel a = .ok (r.intlvMatch.setWidth 32)) :
    r.masks.length ≤ 32 ∧ r.Selects a := by
  have hlen : r.masks.length ≤ 32 := by
    by_contra hlt
    unfold AddrRange.sel at h
    rw [selLoop_error (by omega) (by decide)] at h
    cases h
  refine ⟨hlen, fun k m hm => ?_⟩
  obtain ⟨s, hs, hbits⟩ := sel_eq hlen a
  have hk : k < 32 := (List.getElem?_eq_some_iff.mp hm).1.trans_le hlen
  have hbit := hbits k
  rw [hm] at hbit
  rw [h, Except.ok.injEq] at hs
  rw [← hs, BitVec.getLsbD_setWidth, decide_eq_true hk, Bool.true_and] at hbit
  exact hbit.symm

/-- **What a range contains.** -/
theorem contains_iff {r : AddrRange} {a : Addr} :
    r.contains a = .ok true ↔
      r.start ≤ a ∧ a < r.end_ ∧ r.sel a = .ok (r.intlvMatch.setWidth 32) := by
  unfold AddrRange.contains
  by_cases hin : r.start ≤ a ∧ a < r.end_
  · rw [if_pos hin, bind_eq_ok]
    constructor
    · rintro ⟨s, hs, hmatch⟩
      have heq : s = r.intlvMatch.setWidth 32 := of_decide_eq_true (Except.ok.inj hmatch)
      rw [heq] at hs
      exact ⟨hin.1, hin.2, hs⟩
    · rintro ⟨-, -, hs⟩
      exact ⟨_, hs, congrArg Except.ok (decide_eq_true rfl)⟩
  · rw [if_neg hin]
    constructor
    · intro h
      cases h
    · rintro ⟨h1, h2, -⟩
      exact absurd ⟨h1, h2⟩ hin

end Gem5.Base
