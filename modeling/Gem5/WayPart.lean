/-
# LRU replacement with a way partition for direct cache access

The replacement policy of `mem/cache/replacement_policies/lru_rp.cc` and the part of the cache
that drives it (`tags/base_set_assoc.hh`, `BaseCache::allocateBlock` and `invalidateBlock`), on
one cache set.  A fill from a device picks its victim by `getVictimWayPart`: the first way
whose `ioInvalidated` marker is set, else the least recently touched way of a bit mask.

The marker is set by `invalidateDDIO` and taken back by `invalidate` and by the search itself,
but not by `reset`, which every fill ends with.  An ordinary fill of a marked way therefore
leaves the marker on a valid block.
-/
import Gem5.Runs
import Gem5.Bitfield

namespace Gem5.Mem.WayPart

open Runs

abbrev Tick := ℕ

/-- The assertions of the search and of the tags. -/
inductive Fault where
  | noCandidates
  | tooManyWays
  | noSuchWay
  | invalidBlock
  deriving DecidableEq, Repr

/-! ## The replacement policy -/

/-- `LRU::LRUReplData`. -/
structure LRUReplData where
  lastTouchTick : Tick := 0
  ioInvalidated : Bool := false
  deriving DecidableEq, Repr

namespace LRUReplData

def invalidate (_ : LRUReplData) : LRUReplData := { lastTouchTick := 0, ioInvalidated := false }

def invalidateDDIO (_ : LRUReplData) : LRUReplData := { lastTouchTick := 0, ioInvalidated := true }

def touch (d : LRUReplData) (curTick : Tick) : LRUReplData := { d with lastTouchTick := curTick }

def reset (d : LRUReplData) (curTick : Tick) : LRUReplData := { d with lastTouchTick := curTick }

end LRUReplData

/-- One way of the set: the valid bit of its block and its replacement data.  `ioRemoved` is
history only: the way's last block went by an I/O invalidation and nothing has filled the way
since. -/
structure CacheBlk where
  valid : Bool := false
  replacementData : LRUReplData := {}
  ioRemoved : Bool := false
  deriving DecidableEq, Repr

/-- The ways of one set, in the order `getPossibleEntries` lists them. -/
abbrev CacheSet := List CacheBlk

/-- The loop of `getVictim` from way `way` on, with the victim so far and its last touch. -/
def getVictimLoop : List CacheBlk → ℕ → ℕ × Tick → ℕ
  | [], _, victim => victim.1
  | c :: cs, way, victim =>
      getVictimLoop cs (way + 1)
        (if c.replacementData.lastTouchTick < victim.2 then
          (way, c.replacementData.lastTouchTick) else victim)

/-- `LRU::getVictim`, the way of the returned candidate. -/
def getVictim : CacheSet → Except Fault ℕ
  | [] => .error .noCandidates
  | c :: cs => .ok (getVictimLoop (c :: cs) 0 (0, c.replacementData.lastTouchTick))

/-- One unmarked candidate of `getVictimWayPart`: the victim so far and `is_in_part`. -/
def consider (wayPart mask : BitVec 32) (way : ℕ) (tick : Tick) (victim : ℕ × Tick)
    (isInPart : Bool) : (ℕ × Tick) × Bool :=
  if mask &&& wayPart ≠ 0 then
    let first := if isInPart then victim else (way, tick)
    (if tick < first.2 then (way, tick) else first, true)
  else (victim, isInPart)

/-- The loop of `getVictimWayPart` from way `way` on; the flag of the result is
`is_io_invalidated`. -/
def wayPartLoop (wayPart : BitVec 32) :
    List CacheBlk → ℕ → BitVec 32 → ℕ × Tick → Bool → Except Fault (ℕ × Bool)
  | [], _, _, victim, _ => .ok (victim.1, false)
  | c :: cs, way, mask, victim, isInPart =>
      if c.replacementData.ioInvalidated then .ok (way, true)
      else do
        require .tooManyWays (decide (way + 1 < 32))
        let next := consider wayPart mask way c.replacementData.lastTouchTick victim isInPart
        wayPartLoop wayPart cs (way + 1) (mask <<< 1) next.1 next.2

/-- The search takes the marker of a marked victim back. -/
def clearMarker (b : CacheBlk) : CacheBlk :=
  { b with replacementData := { b.replacementData with ioInvalidated := false } }

/-- `LRU::getVictimWayPart`: the way of the victim, and the set afterwards. -/
def getVictimWayPart (s : CacheSet) (wayPart : BitVec 32) : Except Fault (ℕ × CacheSet) := do
  let c ← orFail .noCandidates s.head?
  let r ← wayPartLoop wayPart s 0 1#32 (0, c.replacementData.lastTouchTick) false
  .ok (r.1, if r.2 then s.modify r.1 clearMarker else s)

/-! ## The cache -/

namespace CacheBlk

/-- `BaseSetAssoc::invalidate`. -/
def invalidate (b : CacheBlk) : CacheBlk :=
  { valid := false, replacementData := b.replacementData.invalidate, ioRemoved := false }

/-- `BaseSetAssoc::invalidateDDIO`. -/
def invalidateDDIO (b : CacheBlk) : CacheBlk :=
  { valid := false, replacementData := b.replacementData.invalidateDDIO, ioRemoved := true }

/-- The hit of `BaseSetAssoc::accessBlock`. -/
def touch (b : CacheBlk) (curTick : Tick) : CacheBlk :=
  { b with replacementData := b.replacementData.touch curTick }

/-- `BaseSetAssoc::insertBlock`. -/
def insertBlock (b : CacheBlk) (curTick : Tick) : CacheBlk :=
  { valid := true, replacementData := b.replacementData.reset curTick, ioRemoved := false }

/-- The eviction of a victim, which `handleEvictions` skips for an invalid one. -/
def evict (b : CacheBlk) : CacheBlk := if b.valid then b.invalidate else b

end CacheBlk

/-- What `allocateBlock` does once it has a victim.  A valid victim for which the MSHR queue
has an entry is not evicted, and the allocation is given up. -/
def allocate (s : CacheSet) (victim : ℕ) (curTick : Tick) (mshrMatch : Bool) :
    Except Fault CacheSet := do
  let b ← orFail .noSuchWay s[victim]?
  if b.valid && mshrMatch then .ok s else .ok (s.set victim (b.evict.insertBlock curTick))

/-- What the cache does with the ways of the set.  The ticks are the values of `curTick()`. -/
inductive Action where
  | touch (way : ℕ) (curTick : Tick)
  | invalidate (way : ℕ)
  | invalidateDDIO (way : ℕ)
  | fill (curTick : Tick) (mshrMatch : Bool)
  | fillDDIO (wayPart : BitVec 32) (curTick : Tick) (mshrMatch : Bool)
  deriving DecidableEq, Repr

/-- The valid block of a way; the tags assert that it is valid. -/
def validBlk (s : CacheSet) (way : ℕ) : Except Fault CacheBlk := do
  let b ← orFail .noSuchWay s[way]?
  require .invalidBlock b.valid
  .ok b

def step (s : CacheSet) : Action → Except Fault CacheSet
  | .touch way curTick => do
      let b ← validBlk s way
      .ok (s.set way (b.touch curTick))
  | .invalidate way => do
      let b ← validBlk s way
      .ok (s.set way b.invalidate)
  | Action.invalidateDDIO way => do
      let b ← validBlk s way
      .ok (s.set way b.invalidateDDIO)
  | .fill curTick mshrMatch => do
      let victim ← getVictim s
      allocate s victim curTick mshrMatch
  | Action.fillDDIO wayPart curTick mshrMatch => do
      let r ← getVictimWayPart s wayPart
      allocate r.2 r.1 curTick mshrMatch

/-- The set after construction. -/
def init (ways : ℕ) : CacheSet := List.replicate ways {}

/-! ## The search within the partition -/

/-- Way `w` is selected by the mask. -/
def Selected (wayPart : BitVec 32) (w : ℕ) : Prop := wayPart.getLsbD w = true

instance (wayPart : BitVec 32) (w : ℕ) : Decidable (Selected wayPart w) :=
  inferInstanceAs (Decidable (_ = _))

variable {wayPart : BitVec 32} {w : ℕ} {s : CacheSet}

/-- The moving mask picks the bit of its way. -/
theorem mask_ne_zero (hw : w < 32) :
    (1#32 <<< w) &&& wayPart ≠ 0 ↔ Selected wayPart w :=
  Base.and_bit_ne_zero hw

/-- Way `w` of the partition is touched least among the ways of the partition below `bound`;
`t` is its last touch. -/
structure LeastTouched (wayPart : BitVec 32) (s : CacheSet) (bound w : ℕ) (t : Tick) : Prop where
  selected : Selected wayPart w
  below : w < bound
  tick : ∃ b, s[w]? = some b ∧ b.replacementData.lastTouchTick = t
  least : ∀ j c, j < bound → s[j]? = some c → Selected wayPart j →
    t ≤ c.replacementData.lastTouchTick

/-- What the loop knows before way `way`: no way of the partition was seen, or the victim is the
least touched of those seen. -/
def Scanned (wayPart : BitVec 32) (s : CacheSet) (way : ℕ) (victim : ℕ × Tick)
    (isInPart : Bool) : Prop :=
  (isInPart = true → LeastTouched wayPart s way victim.1 victim.2) ∧
    (isInPart = false → ∀ j, j < way → ¬ Selected wayPart j)

/-- A way outside the partition changes nothing. -/
theorem LeastTouched.skip {way : ℕ} {t : Tick} (h : LeastTouched wayPart s way w t)
    (hway : ¬ Selected wayPart way) :
    LeastTouched wayPart s (way + 1) w t where
  selected := h.selected
  below := by have := h.below; omega
  tick := h.tick
  least := by
    intro j c hj hc hsel
    rcases Nat.lt_succ_iff_lt_or_eq.mp hj with hlt | rfl
    · exact h.least j c hlt hc hsel
    · exact absurd hsel hway

/-- The least of the ways seen stays it, unless the next way was touched before. -/
theorem LeastTouched.next {way : ℕ} {t : Tick} {b : CacheBlk} (h : LeastTouched wayPart s way w t)
    (hb : s[way]? = some b) (ht : t ≤ b.replacementData.lastTouchTick) :
    LeastTouched wayPart s (way + 1) w t where
  selected := h.selected
  below := by have := h.below; omega
  tick := h.tick
  least := by
    intro j c hj hc hsel
    rcases Nat.lt_succ_iff_lt_or_eq.mp hj with hlt | rfl
    · exact h.least j c hlt hc hsel
    · rw [hb, Option.some.injEq] at hc
      rwa [← hc]

/-- A way of the partition that was touched no later than every way of it seen. -/
theorem leastTouched_new {way : ℕ} {b : CacheBlk} (hb : s[way]? = some b)
    (hsel : Selected wayPart way) (hle : ∀ j c, j < way → s[j]? = some c → Selected wayPart j →
      b.replacementData.lastTouchTick ≤ c.replacementData.lastTouchTick) :
    LeastTouched wayPart s (way + 1) way b.replacementData.lastTouchTick where
  selected := hsel
  below := Nat.lt_succ_self way
  tick := ⟨b, hb, rfl⟩
  least := by
    intro j c hj hc hselj
    rcases Nat.lt_succ_iff_lt_or_eq.mp hj with hlt | rfl
    · exact hle j c hlt hc hselj
    · rw [hb, Option.some.injEq] at hc
      rw [hc]

/-- One unmarked candidate. -/
theorem Scanned.consider {wayPart : BitVec 32} {s : CacheSet} {way : ℕ} {victim : ℕ × Tick}
    {isInPart : Bool} {b : CacheBlk} (h : Scanned wayPart s way victim isInPart)
    (hway : way < 32) (hb : s[way]? = some b) :
    Scanned wayPart s (way + 1)
      (consider wayPart (1#32 <<< way) way b.replacementData.lastTouchTick victim isInPart).1
      (consider wayPart (1#32 <<< way) way b.replacementData.lastTouchTick victim isInPart).2 := by
  unfold WayPart.consider
  by_cases hsel : Selected wayPart way
  · rw [if_pos ((mask_ne_zero hway).mpr hsel)]
    refine ⟨fun _ => ?_, fun hf => absurd hf (by simp)⟩
    by_cases hin : isInPart = true
    · simp only [hin, if_true]
      have hleast := h.1 hin
      split
      next hlt =>
        apply leastTouched_new hb hsel
        intro j c hj hc hselj
        exact hlt.le.trans (hleast.least j c hj hc hselj)
      next hge => exact hleast.next hb (not_lt.mp hge)
    · -- the first way of the partition becomes the victim whatever its tick
      simp only [hin, Bool.false_eq_true, if_false, lt_irrefl]
      apply leastTouched_new hb hsel
      intro j c hj _ hselj
      exact absurd hselj (h.2 (by simpa using hin) j hj)
  · rw [if_neg (fun hne => hsel ((mask_ne_zero hway).mp hne))]
    refine ⟨fun hin => (h.1 hin).skip hsel, fun hin j hj => ?_⟩
    rcases Nat.lt_succ_iff_lt_or_eq.mp hj with hlt | rfl
    · exact h.2 hin j hlt
    · exact hsel

/-- What the search settles on: the first marked way, or the least touched way of the
partition in a set without marked ways. -/
def Settles (wayPart : BitVec 32) (s : CacheSet) (r : ℕ × Bool) : Prop :=
  (r.2 = true ∧ ∃ b, s[r.1]? = some b ∧ b.replacementData.ioInvalidated = true) ∨
    (r.2 = false ∧ ∃ t, LeastTouched wayPart s s.length r.1 t)

/-- The loop, from a suffix of the set on. -/
theorem wayPartLoop_spec (hlen : s.length ≤ 31) (hpart : ∃ w, w < s.length ∧ Selected wayPart w)
    {cs : List CacheBlk} :
    ∀ (way : ℕ) (victim : ℕ × Tick) (isInPart : Bool), s.drop way = cs →
      way ≤ s.length → Scanned wayPart s way victim isInPart →
      ∃ r, wayPartLoop wayPart cs way (1#32 <<< way) victim isInPart = .ok r ∧
        Settles wayPart s r := by
  induction cs with
  | nil =>
    intro way victim isInPart hcs hway hscan
    have hend : way = s.length := by
      have := List.drop_eq_nil_iff.mp hcs
      omega
    refine ⟨_, rfl, .inr ⟨rfl, ?_⟩⟩
    obtain ⟨w, hw, hsel⟩ := hpart
    by_cases hin : isInPart = true
    · exact ⟨victim.2, hend ▸ hscan.1 hin⟩
    · exact absurd hsel (hscan.2 (by simpa using hin) w (hend ▸ hw))
  | cons b cs ih =>
    intro way victim isInPart hcs hway hscan
    have hlt : way < s.length := by
      by_contra hge
      rw [List.drop_eq_nil_of_le (not_lt.mp hge)] at hcs
      simp at hcs
    have hb : s[way]? = some b := by
      rw [← List.head?_drop, hcs, List.head?_cons]
    unfold wayPartLoop
    split
    next hmark => exact ⟨_, rfl, .inl ⟨rfl, b, hb, hmark⟩⟩
    next =>
      rw [require_ok (decide_eq_true (by omega))]
      have hmask : (1#32 <<< way) <<< 1 = 1#32 <<< (way + 1) := by
        rw [BitVec.shiftLeft_add]
      have htail : s.drop (way + 1) = cs := by
        rw [← List.tail_drop, hcs, List.tail_cons]
      have hnext := ih _ _ _ htail (by omega) (hscan.consider (by omega) hb)
      rw [← hmask] at hnext
      exact hnext

/-- **The search.**  A set of at most 31 ways and a mask that selects one of them: the search
returns, and settles on a marked way or on the least touched way of the partition. -/
theorem getVictimWayPart_spec (hlen : s.length ≤ 31)
    (hpart : ∃ w, w < s.length ∧ Selected wayPart w) :
    ∃ r, Settles wayPart s r ∧ getVictimWayPart s wayPart =
      .ok (r.1, if r.2 then s.modify r.1 clearMarker else s) := by
  obtain ⟨c, hc⟩ : ∃ c, s.head? = some c := by
    obtain ⟨w, hw, _⟩ := hpart
    exact ⟨_, List.head?_eq_some_head (List.ne_nil_of_length_pos (by omega))⟩
  obtain ⟨r, hr, hset⟩ := wayPartLoop_spec hlen hpart 0 (0, c.replacementData.lastTouchTick)
    false List.drop_zero (Nat.zero_le _)
    ⟨fun h => absurd h (by simp), fun _ j hj => absurd hj (Nat.not_lt_zero j)⟩
  rw [BitVec.shiftLeft_zero] at hr
  exact ⟨r, hset, bind_eq_ok.mpr ⟨c, orFail_eq_ok.mpr hc, bind_eq_ok.mpr ⟨r, hr, rfl⟩⟩⟩

/-! ## Runs of the cache -/

/-- A marked way is empty, and was emptied by an I/O invalidation. -/
def MarkersHold (s : CacheSet) : Prop :=
  ∀ b ∈ s, b.replacementData.ioInvalidated = true → b.valid = false ∧ b.ioRemoved = true

/-- An ordinary fill does not take a way whose marker is set. -/
def FillsUnmarked (s : CacheSet) : Action → Prop
  | .fill _ _ => ∀ w ∈ (getVictim s).toOption, ∀ b ∈ s[w]?,
      b.replacementData.ioInvalidated = false
  | _ => True

instance (s : CacheSet) : DecidablePred (FillsUnmarked s)
  | .fill _ _ => inferInstanceAs (Decidable (∀ w ∈ (getVictim s).toOption, ∀ b ∈ s[w]?,
      b.replacementData.ioInvalidated = false))
  | .touch _ _ | .invalidate _ | Action.invalidateDDIO _ | Action.fillDDIO _ _ _ => .isTrue trivial

theorem markersHold_init (ways : ℕ) : MarkersHold (init ways) := by
  intro b hb hmark
  rw [init, List.mem_replicate] at hb
  rw [hb.2] at hmark
  simp at hmark

theorem MarkersHold.set {s : CacheSet} (h : MarkersHold s) (w : ℕ) {b : CacheBlk}
    (hb : b.replacementData.ioInvalidated = true → b.valid = false ∧ b.ioRemoved = true) :
    MarkersHold (s.set w b) := by
  intro c hc
  rcases List.mem_or_eq_of_mem_set hc with hc | rfl
  · exact h c hc
  · exact hb

/-- Before the loop reaches the first marked way it passes unmarked ones only, so without a
marked victim the set holds no marked way. -/
theorem wayPartLoop_unmarked {cs : List CacheBlk} :
    ∀ {way : ℕ} {mask : BitVec 32} {victim : ℕ × Tick} {isInPart : Bool} {w : ℕ},
      wayPartLoop wayPart cs way mask victim isInPart = .ok (w, false) →
      ∀ b ∈ cs, b.replacementData.ioInvalidated = false := by
  induction cs with
  | nil => intro _ _ _ _ _ _ b hb; exact absurd hb List.not_mem_nil
  | cons c cs ih =>
    intro way mask victim isInPart w h b hb
    unfold wayPartLoop at h
    split at h
    next => simp at h
    next hmark =>
      obtain ⟨_, _, hrest⟩ := bind_eq_ok.mp h
      rcases List.mem_cons.mp hb with rfl | hb
      · simpa using hmark
      · exact ih hrest b hb

/-- The victim of a search has no marker afterwards, and the search sets none. -/
theorem search_clears {s' : CacheSet} (h : MarkersHold s)
    (hs : getVictimWayPart s wayPart = .ok (w, s')) :
    MarkersHold s' ∧ s'.length = s.length ∧
      ∀ b, s'[w]? = some b → b.replacementData.ioInvalidated = false := by
  obtain ⟨c, _, hs⟩ := bind_eq_ok.mp hs
  obtain ⟨⟨v, io⟩, hloop, hs⟩ := bind_eq_ok.mp hs
  rw [Except.ok.injEq, Prod.mk.injEq] at hs
  obtain ⟨rfl, rfl⟩ := hs
  by_cases hio : io = true
  · rw [if_pos hio]
    refine ⟨?_, List.length_modify _ _ _, ?_⟩
    · intro b hb
      obtain ⟨j, hj⟩ := List.mem_iff_getElem?.mp hb
      rw [List.getElem?_modify] at hj
      obtain ⟨b', hb', rfl⟩ := Option.map_eq_some_iff.mp hj
      split
      · intro hmark
        simp [clearMarker] at hmark
      · exact h b' (List.mem_of_getElem? hb')
    · intro b hb
      rw [List.getElem?_modify] at hb
      obtain ⟨b', _, rfl⟩ := Option.map_eq_some_iff.mp hb
      simp [clearMarker]
  · rw [if_neg hio]
    have hfalse : io = false := by simpa using hio
    subst hfalse
    exact ⟨h, rfl, fun b hb => wayPartLoop_unmarked hloop b (List.mem_of_getElem? hb)⟩

/-- An allocation into an unmarked way. -/
theorem MarkersHold.allocate {s' : CacheSet} {t : Tick} {mshrMatch : Bool} (h : MarkersHold s)
    (hw : ∀ b, s[w]? = some b → b.replacementData.ioInvalidated = false)
    (hs : allocate s w t mshrMatch = .ok s') : MarkersHold s' ∧ s'.length = s.length := by
  obtain ⟨b, hb, hs⟩ := bind_eq_ok.mp hs
  have hunmarked := hw b (orFail_eq_ok.mp hb)
  split at hs
  next =>
    rw [Except.ok.injEq] at hs
    exact hs ▸ ⟨h, rfl⟩
  next =>
    rw [Except.ok.injEq] at hs
    subst hs
    refine ⟨h.set w fun hmark => ?_, List.length_set⟩
    -- evicting clears the marker of a valid block; an invalid one had none
    unfold CacheBlk.evict CacheBlk.insertBlock LRUReplData.reset at hmark
    split at hmark
    · simp [CacheBlk.invalidate, LRUReplData.invalidate] at hmark
    · simp only [hunmarked, Bool.false_eq_true] at hmark

theorem validBlk_eq_ok {b : CacheBlk} :
    validBlk s w = .ok b ↔ s[w]? = some b ∧ b.valid = true := by
  unfold validBlk
  constructor
  · intro h
    obtain ⟨c, hc, h⟩ := bind_eq_ok.mp h
    obtain ⟨_, hvalid, h⟩ := bind_eq_ok.mp h
    rw [Except.ok.injEq] at h
    subst h
    exact ⟨orFail_eq_ok.mp hc, require_eq_ok.mp hvalid⟩
  · rintro ⟨hb, hvalid⟩
    exact bind_eq_ok.mpr ⟨b, orFail_eq_ok.mpr hb, bind_eq_ok.mpr ⟨_, require_ok hvalid, rfl⟩⟩

/-- One action of the cache. -/
theorem MarkersHold.step {s' : CacheSet} {a : Action} (h : MarkersHold s)
    (hfill : FillsUnmarked s a) (hs : step s a = .ok s') :
    MarkersHold s' ∧ s'.length = s.length := by
  cases a with
  | touch w t =>
    obtain ⟨b, hb, hs⟩ := bind_eq_ok.mp hs
    rw [Except.ok.injEq] at hs
    subst hs
    obtain ⟨hb, _⟩ := validBlk_eq_ok.mp hb
    exact ⟨h.set w (h b (List.mem_of_getElem? hb)), List.length_set⟩
  | invalidate w =>
    obtain ⟨b, _, hs⟩ := bind_eq_ok.mp hs
    rw [Except.ok.injEq] at hs
    subst hs
    exact ⟨h.set w fun hmark => absurd hmark (by simp [CacheBlk.invalidate,
      LRUReplData.invalidate]), List.length_set⟩
  | invalidateDDIO w =>
    obtain ⟨b, _, hs⟩ := bind_eq_ok.mp hs
    rw [Except.ok.injEq] at hs
    subst hs
    exact ⟨h.set w fun _ => ⟨rfl, rfl⟩, List.length_set⟩
  | fill t mshrMatch =>
    obtain ⟨w, hw, hs⟩ := bind_eq_ok.mp hs
    have hmem : w ∈ (getVictim s).toOption := by rw [hw]; rfl
    exact h.allocate (hfill w hmem) hs
  | fillDDIO wayPart t mshrMatch =>
    obtain ⟨⟨w, s₁⟩, hw, hs⟩ := bind_eq_ok.mp hs
    obtain ⟨h₁, hlen, hunmarked⟩ := search_clears h hw
    obtain ⟨h₂, hlen'⟩ := h₁.allocate hunmarked hs
    exact ⟨h₂, hlen'.trans hlen⟩

/-- What a fill from a device may replace: a way emptied by an I/O invalidation and not filled
since, or the least touched way of the partition. -/
def Isolated (wayPart : BitVec 32) (s : CacheSet) (w : ℕ) : Prop :=
  ∃ b, s[w]? = some b ∧
    ((b.valid = false ∧ b.ioRemoved = true) ∨
      (Selected wayPart w ∧ ∀ j c, s[j]? = some c → Selected wayPart j →
        b.replacementData.lastTouchTick ≤ c.replacementData.lastTouchTick)) ∧
    (b.valid = true → Selected wayPart w)

theorem MarkersHold.isolated {r : ℕ × Bool} (h : MarkersHold s) (hr : Settles wayPart s r) :
    Isolated wayPart s r.1 := by
  rcases hr with ⟨_, b, hb, hmark⟩ | ⟨_, t, hleast⟩
  · obtain ⟨hvalid, hio⟩ := h b (List.mem_of_getElem? hb) hmark
    exact ⟨b, hb, .inl ⟨hvalid, hio⟩, fun hv => absurd hv (by simp [hvalid])⟩
  · obtain ⟨b, hb, rfl⟩ := hleast.tick
    refine ⟨b, hb, .inr ⟨hleast.selected, fun j c hc hsel => ?_⟩, fun _ => hleast.selected⟩
    exact hleast.least j c (List.getElem?_eq_some_iff.mp hc).1 hc hsel

/-- **Partition isolation.**  In every run of a set of at most 31 ways whose ordinary fills leave
the marked ways alone, and for every mask that selects one of the ways, a fill from a device
replaces a way emptied by an I/O invalidation or the least touched way of the partition, and
never a valid block outside the partition. -/
theorem partition_isolated (ways : ℕ) (as : List Action) {s : CacheSet} (hways : ways ≤ 31)
    (hfill : Admitted FillsUnmarked step (init ways) as)
    (hrun : run step (init ways) as = .ok s) {wayPart : BitVec 32}
    (hpart : ∃ w, w < ways ∧ Selected wayPart w) :
    ∃ w s', getVictimWayPart s wayPart = .ok (w, s') ∧ Isolated wayPart s w := by
  have hinv : MarkersHold s ∧ s.length = ways := by
    refine run_invariant (P := fun t => MarkersHold t ∧ t.length = ways) ?_ ?_ hfill hrun
    · rintro t a t' ⟨ht, hlen⟩ hadm hstep
      obtain ⟨ht', hlen'⟩ := ht.step hadm hstep
      exact ⟨ht', hlen'.trans hlen⟩
    · exact ⟨markersHold_init ways, by simp [init]⟩
  obtain ⟨hmarks, hlen⟩ := hinv
  obtain ⟨r, hset, hvictim⟩ := getVictimWayPart_spec (s := s) (by omega) (hlen.symm ▸ hpart)
  exact ⟨r.1, _, hvictim, hmarks.isolated hset⟩

/-- After two fills and an I/O invalidation of way 1, a device whose partition is way 1 gets it. -/
theorem partition_isolated_after_io :
    ∃ s, run step (init 2) [.fill 10 false, .fill 20 false, Action.invalidateDDIO 1] = .ok s ∧
      ∃ w s', getVictimWayPart s 2#32 = .ok (w, s') ∧ Isolated 2#32 s w :=
  ⟨_, rfl, partition_isolated 2 [.fill 10 false, .fill 20 false, Action.invalidateDDIO 1] (by decide)
    (by decide) rfl ⟨1, by decide, by decide⟩⟩

/-- **A stale marker.**  Way 0 is filled, emptied by an I/O invalidation and filled again by an
ordinary miss, which leaves the marker: the fill from a device then takes the valid way 0 although
its partition is way 1. -/
theorem stale_marker_leaves_partition :
    ∃ s s', run step (init 2) [.fill 10 false, Action.invalidateDDIO 0, .fill 20 false] = .ok s ∧
      getVictimWayPart s 2#32 = .ok (0, s') ∧ Selected 2#32 1 ∧ ¬ Isolated 2#32 s 0 := by
  refine ⟨_, _, rfl, rfl, by decide, ?_⟩
  rintro ⟨b, hb, _, hvalid⟩
  obtain rfl := Option.some.inj hb
  exact absurd (hvalid rfl) (by decide)

end Gem5.Mem.WayPart
