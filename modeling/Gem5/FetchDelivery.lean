/-
# From the fetch queues to decode

The end of `Fetch::tick` (`cpu/o3/fetch.cc`), which moves instructions from the fetch queues of the
threads into the time buffer to decode, put in front of the two stages of `Gem5.DecodeStage`.
Decode receives what fetch has sent `fetchToDecodeDelay` cycles before.

What the loop of `Fetch::fetch` would build for a thread, had it room, is the input of a cycle; it
stops when the fetch width or the fetch queue is used up.  Fetch goes on to build instructions for a
thread that decode blocks, and only stops sending them.
-/
import Gem5.DecodeStage

open Runs

namespace Gem5.Pipeline

variable {n : ℕ}

/-- The parameters of the stages with the size of the fetch queues. -/
structure FrontParams (n : ℕ) extends DecodeParams n where
  fetchQueueSize : ℕ

/-- What a cycle receives from outside: which threads fetch squashes, what it could fetch for the
threads that it picks, the position of the thread it starts to send with, and the signals of rename
and commit. -/
structure FrontCycle (n : ℕ) where
  fetchSquash : Fin n → Bool
  supply : List (Fin n × List (FetchedInst n))
  start : ℕ
  isSquashed : FetchedInst n → Bool
  renameBlock : Fin n → Bool
  renameUnblock : Fin n → Bool
  commitSquash : Fin n → Bool

/-- The input of decode. -/
def FrontCycle.toDecodeCycle (c : FrontCycle n) (fromFetch : List (FetchedInst n)) :
    DecodeCycle n where
  fromFetch := fromFetch
  isSquashed := c.isSquashed
  renameBlock := c.renameBlock
  renameUnblock := c.renameUnblock
  commitSquash := c.commitSquash

/-- The two stages, the fetch queues, and the slots on the way to decode with the oldest first. -/
structure FrontEnd (n : ℕ) where
  stages : FetchDecode n
  fetchQueue : Fin n → List (FetchedInst n)
  toDecode : List (List (FetchedInst n))

namespace FrontEnd

/-- The processor before its first cycle. -/
def initial (p : FrontParams n) : FrontEnd n where
  stages := .initial p.toDecodeParams
  fetchQueue := fun _ => []
  toDecode := List.replicate p.fetchToDecodeDelay []

/-! ## Fetching -/

/-- The fetch queues while fetch is ticked, with `numInst`. -/
structure Fetching (n : ℕ) where
  numInst : ℕ
  fetchQueue : Fin n → List (FetchedInst n)

/-- `doSquash` clears the queue of a thread. -/
def clearSquashed (squash : Fin n → Bool) (fetchQueue : Fin n → List (FetchedInst n))
    (tid : Fin n) : List (FetchedInst n) :=
  if squash tid then [] else fetchQueue tid

/-- How many instructions the loop of `fetch` may build for a thread. -/
def room (p : FrontParams n) (s : Fetching n) (tid : Fin n) : ℕ :=
  min (p.fetchWidth - s.numInst) (p.fetchQueueSize - (s.fetchQueue tid).length)

/-- The loop of `fetch` for one thread. -/
def fetch (p : FrontParams n) (s : Fetching n) (x : Fin n × List (FetchedInst n)) : Fetching n :=
  let insts := (x.2.take (room p s x.1)).map fun inst => { inst with tid := x.1 }
  { numInst := s.numInst + insts.length
    fetchQueue := Function.update s.fetchQueue x.1 (s.fetchQueue x.1 ++ insts) }

/-- The calls of `fetch` in a cycle. -/
def fetchAll (p : FrontParams n) (fetchQueue : Fin n → List (FetchedInst n))
    (supply : List (Fin n × List (FetchedInst n))) : Fetching n :=
  supply.foldl (fetch p) ⟨0, fetchQueue⟩

/-! ## Sending -/

/-- The fetch queues and the slot of decode while fetch sends. -/
structure Sending (n : ℕ) where
  fetchQueue : Fin n → List (FetchedInst n)
  toDecode : List (FetchedInst n)

/-- One round of the sending loop: the thread gives up its oldest instruction, unless decode stalls
it, it has none, or the width of decode is used up. -/
def sendOne (p : FrontParams n) (stallsDecode : Fin n → Bool) (s : Sending n) (tid : Fin n) :
    Sending n :=
  if s.toDecode.length < p.decodeWidth && !stallsDecode tid then
    match s.fetchQueue tid with
    | [] => s
    | inst :: rest =>
        { fetchQueue := Function.update s.fetchQueue tid rest
          toDecode := s.toDecode ++ [inst] }
  else s

/-- The sending loop, which goes round the active threads.  As long as some thread has something to
send each turn sends an instruction, so there are at most `decodeWidth` turns, and when nothing is
left or the width is used up the further ones do nothing. -/
def send (p : FrontParams n) (stallsDecode : Fin n → Bool) (start : ℕ)
    (fetchQueue : Fin n → List (FetchedInst n)) : Sending n :=
  (List.replicate p.decodeWidth (p.activeThreads.rotate start)).flatten.foldl
    (sendOne p stallsDecode) ⟨fetchQueue, []⟩

/-! ## A cycle -/

/-- The fetch queues after fetch has squashed and fetched. -/
def fetched (p : FrontParams n) (s : FrontEnd n) (c : FrontCycle n) :
    Fin n → List (FetchedInst n) :=
  (fetchAll p (clearSquashed c.fetchSquash s.fetchQueue) c.supply).fetchQueue

/-- One cycle of the two stages. -/
def cycle (p : FrontParams n) (s : FrontEnd n) (c : FrontCycle n) :
    Except DecodeFail (FrontEnd n) := do
  let stages ← s.stages.fetchTick p.toDecodeParams
  let sending := send p stages.stallsDecode c.start (fetched p s c)
  let slots := s.toDecode ++ [sending.toDecode]
  let stages ← stages.decodeTick p.toDecodeParams (c.toDecodeCycle (slots.headD []))
  return { stages := stages, fetchQueue := sending.fetchQueue, toDecode := slots.tail }

/-! ## What fetch adds -/

/-- Every instruction in the queue of a thread is the thread's. -/
def OwnInsts (fetchQueue : Fin n → List (FetchedInst n)) : Prop :=
  ∀ tid, ∀ inst ∈ fetchQueue tid, inst.tid = tid

/-- Fetch stays within its width and within the size of the queues. -/
structure Fetches (p : FrontParams n) (before : Fin n → List (FetchedInst n)) (s : Fetching n) :
    Prop where
  width : s.numInst ≤ p.fetchWidth
  size : ∀ tid, (s.fetchQueue tid).length ≤ p.fetchQueueSize
  added : ∀ tid, (s.fetchQueue tid).length ≤ (before tid).length + s.numInst
  own : OwnInsts s.fetchQueue

theorem Fetches.fetch {p : FrontParams n} {before : Fin n → List (FetchedInst n)} {s : Fetching n}
    (h : Fetches p before s) (x : Fin n × List (FetchedInst n)) :
    Fetches p before (fetch p s x) := by
  obtain ⟨tid₀, insts⟩ := x
  have hlen : ((insts.take (room p s tid₀)).map
      fun inst => ({ inst with tid := tid₀ } : FetchedInst n)).length ≤ room p s tid₀ := by
    rw [List.length_map, List.length_take]
    exact min_le_left _ _
  have hwidth : room p s tid₀ ≤ p.fetchWidth - s.numInst := min_le_left _ _
  have hsize : room p s tid₀ ≤ p.fetchQueueSize - (s.fetchQueue tid₀).length := min_le_right _ _
  have hn := h.width
  have hq := h.size tid₀
  have hadded := h.added tid₀
  unfold FrontEnd.fetch
  refine ⟨by dsimp only; omega, fun tid => ?_, fun tid => ?_, fun tid => ?_⟩
  · by_cases htid : tid = tid₀
    · subst htid
      dsimp only
      rw [Function.update_self, List.length_append]
      omega
    · dsimp only
      rw [Function.update_of_ne htid]
      exact h.size tid
  · by_cases htid : tid = tid₀
    · subst htid
      dsimp only
      rw [Function.update_self, List.length_append]
      omega
    · dsimp only
      rw [Function.update_of_ne htid]
      exact (h.added tid).trans (Nat.add_le_add_left (Nat.le_add_right _ _) _)
  · by_cases htid : tid = tid₀
    · subst htid
      dsimp only
      rw [Function.update_self]
      intro inst hi
      rcases List.mem_append.mp hi with hi | hi
      · exact h.own tid inst hi
      · obtain ⟨_, _, rfl⟩ := List.mem_map.mp hi
        rfl
    · dsimp only
      rw [Function.update_of_ne htid]
      exact h.own tid

theorem fetchAll_fetches {p : FrontParams n} {before : Fin n → List (FetchedInst n)}
    (hsize : ∀ tid, (before tid).length ≤ p.fetchQueueSize) (hown : OwnInsts before)
    (supply : List (Fin n × List (FetchedInst n))) :
    Fetches p before (fetchAll p before supply) := by
  have hstart : Fetches p before ⟨0, before⟩ :=
    ⟨Nat.zero_le _, hsize, fun _ => Nat.le_refl _, hown⟩
  unfold fetchAll
  generalize (⟨0, before⟩ : Fetching n) = s at hstart
  induction supply generalizing s with
  | nil => exact hstart
  | cons x supply ih => exact ih _ (hstart.fetch x)

/-- **What fetch sends from** is the thread's own and no longer than the old queue and the width. -/
theorem fetched_spec (p : FrontParams n) {s : FrontEnd n} (c : FrontCycle n)
    (hsize : ∀ tid, (s.fetchQueue tid).length ≤ p.fetchQueueSize) (hown : OwnInsts s.fetchQueue) :
    OwnInsts (fetched p s c) ∧ ∀ tid, (fetched p s c tid).length ≤
      min p.fetchQueueSize ((s.fetchQueue tid).length + p.fetchWidth) := by
  have hclear (tid : Fin n) : (clearSquashed c.fetchSquash s.fetchQueue tid).length ≤
      (s.fetchQueue tid).length := by
    unfold clearSquashed
    split_ifs
    · exact Nat.zero_le _
    · exact Nat.le_refl _
  have hown' : OwnInsts (clearSquashed c.fetchSquash s.fetchQueue) := by
    intro tid inst hi
    unfold clearSquashed at hi
    split_ifs at hi
    · exact absurd hi List.not_mem_nil
    · exact hown tid inst hi
  have hspec := fetchAll_fetches (fun tid => (hclear tid).trans (hsize tid)) hown' c.supply
  refine ⟨hspec.own, fun tid => le_min (hspec.size tid) ((hspec.added tid).trans ?_)⟩
  exact Nat.add_le_add (hclear tid) hspec.width

/-! ## What fetch sends -/

/-- Fetch sends from the front of the queues of active threads that decode does not stall, within
the width of decode. -/
structure Sends (p : FrontParams n) (stallsDecode : Fin n → Bool)
    (before : Fin n → List (FetchedInst n)) (s : Sending n) : Prop where
  width : s.toDecode.length ≤ p.decodeWidth
  front : ∀ tid, s.toDecode.filter (·.tid = tid) ++ s.fetchQueue tid = before tid
  free : ∀ inst ∈ s.toDecode, inst.tid ∈ p.activeThreads ∧ stallsDecode inst.tid = false

theorem Sends.sendOne {p : FrontParams n} {stallsDecode : Fin n → Bool}
    {before : Fin n → List (FetchedInst n)} {s : Sending n} (h : Sends p stallsDecode before s)
    (hown : OwnInsts before) {tid : Fin n} (htid : tid ∈ p.activeThreads) :
    Sends p stallsDecode before (sendOne p stallsDecode s tid) := by
  unfold FrontEnd.sendOne
  split_ifs with hcond
  · rw [Bool.and_eq_true, decide_eq_true_eq, Bool.not_eq_true'] at hcond
    cases hq : s.fetchQueue tid with
    | nil => exact h
    | cons inst rest =>
      have hfront := h.front tid
      rw [hq] at hfront
      have hinst : inst.tid = tid :=
        hown tid inst (hfront ▸ List.mem_append_right _ List.mem_cons_self)
      refine ⟨?_, fun j => ?_, fun i hi => ?_⟩
      · show (s.toDecode ++ [inst]).length ≤ p.decodeWidth
        rw [List.length_append]
        exact hcond.1
      · show (s.toDecode ++ [inst]).filter (·.tid = j) ++
            Function.update s.fetchQueue tid rest j = before j
        rw [List.filter_append]
        by_cases hj : j = tid
        · subst hj
          rw [Function.update_self, ← hfront, List.append_assoc]
          simp only [List.filter_cons, hinst, decide_true, if_true, List.filter_nil]
          rfl
        · rw [Function.update_of_ne hj]
          simp only [List.filter_cons, hinst, decide_eq_false (Ne.symm hj),
            Bool.false_eq_true, if_false, List.filter_nil, List.append_nil]
          exact h.front j
      · rcases List.mem_append.mp hi with hi | hi
        · exact h.free i hi
        · rw [List.mem_singleton.mp hi, hinst]
          exact ⟨htid, hcond.2⟩
  · exact h

theorem foldl_sends {p : FrontParams n} {stallsDecode : Fin n → Bool}
    {before : Fin n → List (FetchedInst n)} (hown : OwnInsts before) {l : List (Fin n)}
    (hl : ∀ tid ∈ l, tid ∈ p.activeThreads) {s : Sending n} (h : Sends p stallsDecode before s) :
    Sends p stallsDecode before (l.foldl (sendOne p stallsDecode) s) := by
  induction l generalizing s with
  | nil => exact h
  | cons tid l ih =>
    exact ih (fun j hj => hl j (List.mem_cons_of_mem _ hj))
      (h.sendOne hown (hl tid List.mem_cons_self))

theorem mem_turns {p : FrontParams n} {k start : ℕ} {tid : Fin n}
    (h : tid ∈ (List.replicate k (p.activeThreads.rotate start)).flatten) :
    tid ∈ p.activeThreads := by
  obtain ⟨l, hl, htid⟩ := List.mem_flatten.mp h
  rw [List.eq_of_mem_replicate hl] at htid
  exact List.mem_rotate.mp htid

theorem send_sends (p : FrontParams n) (stallsDecode : Fin n → Bool) (start : ℕ)
    {before : Fin n → List (FetchedInst n)} (hown : OwnInsts before) :
    Sends p stallsDecode before (send p stallsDecode start before) :=
  foldl_sends hown (fun _ h => mem_turns h) ⟨Nat.zero_le _, fun _ => rfl, nofun⟩

end FrontEnd

end Gem5.Pipeline
