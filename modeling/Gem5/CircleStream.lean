/-
# A circular buffer as a stream

The abstract stream holds what was written and not taken out again.  A write keeps the last
`capacity` elements of it and a read takes the first ones.  Whatever a program does with a
`CircleBuf` (`base/circlebuf.hh`), it sees what it would see of the stream: the contents of the
buffer are the stream, every `peek` and `read` copies out the part asked for, and one that goes past
the end stops both.
-/
import Gem5.CircleBuf

namespace Gem5.CircleBuf

open Runs

variable {α : Type}

/-! ## Operations -/

/-- What a program does with a buffer. -/
inductive Op (α : Type)
  | write (data : List α)
  | read (len : ℕ)
  | peek (offset len : ℕ)
  | flush

/-- A buffer in use, with what was copied out of it so far. -/
structure InUse (α : Type) where
  buf : CircleBuf α
  copied : List (List α)

def InUse.step (s : InUse α) : Op α → Except CircleFault (InUse α)
  | .write data => .ok { s with buf := s.buf.write data }
  | .read len => do
      let r ← s.buf.read len
      return ⟨r.2, s.copied ++ [r.1]⟩
  | .peek offset len => do
      let out ← s.buf.peek offset len
      return { s with copied := s.copied ++ [out] }
  | .flush => .ok { s with buf := s.buf.flush }

/-- What a buffer holds: a peek at all of it. -/
def contents (b : CircleBuf α) : Except CircleFault (List α) := b.peek 0 b.size

/-! ## The stream -/

/-- The last `n` elements. -/
def lastElements (n : ℕ) (ys : List α) : List α := ys.drop (ys.length - n)

/-- A stream in use, with what was copied out of it so far. -/
structure StreamInUse (α : Type) where
  stream : List α
  copied : List (List α)

def StreamInUse.step (capacity : ℕ) (s : StreamInUse α) : Op α → Except CircleFault (StreamInUse α)
  | .write data => .ok { s with stream := lastElements capacity (s.stream ++ data) }
  | .read len => do
      require .readPastEnd (len ≤ s.stream.length)
      return ⟨s.stream.drop len, s.copied ++ [s.stream.take len]⟩
  | .peek offset len => do
      require .readPastEnd (offset + len ≤ s.stream.length)
      return { s with copied := s.copied ++ [(s.stream.drop offset).take len] }
  | .flush => .ok { s with stream := [] }

/-! ## Refinement -/

/-- The buffer holds the stream, and the same was copied out of both. -/
structure Refines (capacity : ℕ) (s : InUse α) (t : StreamInUse α) : Prop where
  represents : s.buf.Represents t.stream
  capacity : s.buf.capacity = capacity
  copied : s.copied = t.copied

theorem Refines.contents {capacity : ℕ} {s : InUse α} {t : StreamInUse α}
    (h : Refines capacity s t) : s.buf.contents = .ok t.stream := by
  have hlength := h.represents.length
  have hroom : 0 + s.buf.size ≤ t.stream.length := by
    rw [CircleBuf.size]
    omega
  rw [CircleBuf.contents, h.represents.peek hroom, List.drop_zero, CircleBuf.size, ← hlength,
    List.take_length]

/-- A peek past the end stops. -/
theorem Represents.peek_error {b : CircleBuf α} {ys : List α} (h : b.Represents ys)
    {offset len : ℕ} (hlen : ¬offset + len ≤ ys.length) :
    b.peek offset len = .error .readPastEnd := by
  have hlength := h.length
  exact bind_eq_error.mpr (.inl (require_eq_error.mpr ⟨decide_eq_false (by omega), rfl⟩))

/-- **Every operation** does the same to the buffer and to the stream, or stops both. -/
theorem Refines.step {capacity : ℕ} (hpos : 0 < capacity) {s : InUse α} {t : StreamInUse α}
    (h : Refines capacity s t) (op : Op α) :
    (∃ s' t', s.step op = .ok s' ∧ t.step capacity op = .ok t' ∧ Refines capacity s' t') ∨
      ∃ e, s.step op = .error e ∧ t.step capacity op = .error e := by
  obtain ⟨hrep, hcap, hcopied⟩ := h
  cases op with
  | write data =>
    obtain ⟨hwritten, hcap'⟩ := hrep.write (hcap ▸ hpos) data
    refine .inl ⟨_, _, rfl, rfl, ?_, hcap'.trans hcap, hcopied⟩
    rw [hcap, ← List.length_append] at hwritten
    exact hwritten
  | read len =>
    by_cases hlen : len ≤ t.stream.length
    · obtain ⟨b', hread, hrep', hcap'⟩ := hrep.read hlen
      refine .inl ⟨_, _, bind_eq_ok.mpr ⟨_, hread, rfl⟩,
        bind_eq_ok.mpr ⟨(), require_ok (decide_eq_true hlen), rfl⟩, hrep', hcap'.trans hcap, ?_⟩
      dsimp only
      rw [hcopied]
    · have hpeek : s.buf.peek 0 len = .error .readPastEnd := hrep.peek_error (by omega)
      refine .inr ⟨.readPastEnd, ?_, ?_⟩
      · exact bind_eq_error.mpr (.inl (bind_eq_error.mpr (.inl hpeek)))
      · exact bind_eq_error.mpr (.inl (require_eq_error.mpr ⟨decide_eq_false hlen, rfl⟩))
  | peek offset len =>
    by_cases hlen : offset + len ≤ t.stream.length
    · refine .inl ⟨_, _, bind_eq_ok.mpr ⟨_, hrep.peek hlen, rfl⟩,
        bind_eq_ok.mpr ⟨(), require_ok (decide_eq_true hlen), rfl⟩, hrep, hcap, ?_⟩
      dsimp only
      rw [hcopied]
    · refine .inr ⟨.readPastEnd, ?_, ?_⟩
      · exact bind_eq_error.mpr (.inl (hrep.peek_error hlen))
      · exact bind_eq_error.mpr (.inl (require_eq_error.mpr ⟨decide_eq_false hlen, rfl⟩))
  | flush => exact .inl ⟨_, _, rfl, rfl, represents_flush s.buf, hcap, hcopied⟩

theorem Refines.run {capacity : ℕ} (hpos : 0 < capacity) {s : InUse α} {t : StreamInUse α}
    (h : Refines capacity s t) (ops : List (Op α)) :
    (∃ s' t', run InUse.step s ops = .ok s' ∧ run (StreamInUse.step capacity) t ops = .ok t' ∧
        Refines capacity s' t') ∨
      ∃ e, run InUse.step s ops = .error e ∧ run (StreamInUse.step capacity) t ops = .error e := by
  induction ops generalizing s t with
  | nil => exact .inl ⟨s, t, rfl, rfl, h⟩
  | cons op ops ih =>
    rcases h.step hpos op with ⟨s', t', hs, ht, h'⟩ | ⟨e, hs, ht⟩
    · rw [run_cons_ok ops hs, run_cons_ok ops ht]
      exact ih h'
    · exact .inr ⟨e, run_cons_error ops hs, run_cons_error ops ht⟩

/-- Both stop with the same panic, or what was copied out is the same and the contents are the
stream. -/
def SameOutcome (capacity : ℕ) :
    Except CircleFault (InUse α) → Except CircleFault (StreamInUse α) → Prop
  | .ok s, .ok t => s.copied = t.copied ∧ s.buf.contents = .ok t.stream ∧
      s.buf.size = t.stream.length ∧ t.stream.length ≤ capacity
  | .error e, .error e' => e = e'
  | _, _ => False

/-- **A circular buffer is a stream** of which the last elements are kept, over any sequence of
operations. -/
theorem run_refines_stream (capacity : ℕ) (hpos : 0 < capacity) (blank : α) (ops : List (Op α)) :
    SameOutcome capacity (run InUse.step ⟨new capacity blank, []⟩ ops)
      (run (StreamInUse.step capacity) ⟨[], []⟩ ops) := by
  have hnew : Refines capacity (⟨new capacity blank, []⟩ : InUse α) ⟨[], []⟩ :=
    ⟨represents_new capacity blank, List.length_replicate, rfl⟩
  rcases hnew.run hpos ops with ⟨s, t, hs, ht, h⟩ | ⟨e, hs, ht⟩
  · rw [hs, ht]
    refine ⟨h.copied, h.contents, h.represents.length.symm, ?_⟩
    rw [h.represents.length, ← h.capacity]
    exact h.represents.fits
  · rw [hs, ht]
    rfl

theorem run_refines_stream_long :
    SameOutcome 4 (run InUse.step ⟨new 4 0, []⟩ [.write [1, 2, 3, 4, 5, 6], .read 1, .peek 1 2])
      (run (StreamInUse.step 4) ⟨[], []⟩ [.write [1, 2, 3, 4, 5, 6], .read 1, .peek 1 2]) :=
  run_refines_stream 4 (by decide) 0 _

end Gem5.CircleBuf
