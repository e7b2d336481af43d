/-
# Events in checkpoints

Embedding of `Event::serialize`, `Event::unserialize` and `EventQueue::checkpointReschedule`
(`sim/eventq.cc`), as `SERIALIZE_EVENT` and `UNSERIALIZE_EVENT` call them.  The flags of an event
are one word; a checkpoint keeps it with the time and the priority.

A restored event loses the flag that says that it was scheduled exactly when it was, and was not
squashed; the queue then inserts the events that still have the flag.  So the events that come back
as they were are those that were not scheduled (`restored_iff`).
-/
import Gem5.Bitfield
import Gem5.EventBins

namespace Gem5.Sim

open Runs

/-! ## Flags -/

/-- `Flags<unsigned short>` -/
abbrev Flags := BitVec 16

namespace Flags

def Squashed : Flags := 0x0001#16

def Scheduled : Flags := 0x0002#16

def Managed : Flags := 0x0004#16

def IsExitEvent : Flags := 0x0010#16

def IsMainQueue : Flags := 0x0020#16

def Initialized : Flags := 0x7a40#16

def InitMask : Flags := 0xffc0#16

def isSet (flags mask : Flags) : Bool := flags &&& mask ≠ 0

def clear (flags mask : Flags) : Flags := flags &&& ~~~mask

def set (flags mask : Flags) : Flags := flags ||| mask

/-- The flags other than those of the schedule. -/
def persistent (flags : Flags) : Flags := flags.clear (Squashed ||| Scheduled)

theorem isSet_clear_scheduled (flags : Flags) :
    isSet (flags.clear (Squashed ||| Scheduled)) Scheduled = false := by
  unfold isSet clear
  rw [BitVec.and_assoc, show ~~~(Squashed ||| Scheduled) &&& Scheduled = 0#16 by decide,
    BitVec.and_zero]
  rfl

theorem persistent_clear (flags : Flags) :
    persistent (flags.clear (Squashed ||| Scheduled)) = persistent flags := by
  unfold persistent clear
  rw [BitVec.and_assoc, BitVec.and_self]

theorem set_initialized {flags : Flags} (h : flags &&& InitMask = Initialized) :
    flags.set Initialized = flags := by
  unfold set
  rw [← h]
  apply BitVec.eq_of_getLsbD_eq
  intro i _
  rw [BitVec.getLsbD_or, BitVec.getLsbD_and]
  cases flags.getLsbD i <;> rfl

/-- The highest flag is one of the bits that tell an event from anything else. -/
theorem toInt_nonneg {flags : Flags} (h : flags &&& InitMask = Initialized) : 0 ≤ flags.toInt := by
  have hmsb : flags.msb = false := by
    have hbit := congrArg BitVec.msb h
    rw [BitVec.msb_and, show InitMask.msb = true by decide, show Initialized.msb = false by decide,
      Bool.and_true] at hbit
    exact hbit
  rw [BitVec.toInt_eq_toNat_of_msb hmsb]
  exact Int.natCast_nonneg _

end Flags

/-! ## Checkpoints -/

/-- What of an event a checkpoint is about. -/
structure EventState where
  when_ : BitVec 64
  priority : BitVec 8
  flags : Flags
  deriving DecidableEq, Repr

/-- The section of an event in a checkpoint: the numbers that are printed. -/
structure Section where
  when_ : ℤ
  priority : ℤ
  flags : ℤ
  deriving DecidableEq, Repr

/-- What stops the restoring of an event. -/
inductive CheckpointFault where
  /-- `assert(!scheduled())` -/
  | scheduled
  /-- `fatal("Can't unserialize '%s:%s'")` -/
  | cantUnserialize
  /-- `assert(initialized())` -/
  | notInitialized
  /-- a fault of the queue -/
  | queue (f : Fail)
  deriving DecidableEq, Repr

/-- `__to_number` to an unsigned type of `w` bits. -/
def toUnsigned (w : ℕ) (z : ℤ) : Except CheckpointFault (BitVec w) := do
  require .cantUnserialize (z % 2 ^ 64 < 2 ^ w)
  return BitVec.ofInt w (z % 2 ^ 64)

/-- `__to_number` to a signed type of `w` bits. -/
def toSigned (w : ℕ) (z : ℤ) : Except CheckpointFault (BitVec w) := do
  require .cantUnserialize (-2 ^ (w - 1) ≤ z ∧ z < 2 ^ (w - 1))
  return BitVec.ofInt w z

namespace EventState

def scheduled (s : EventState) : Bool := s.flags.isSet .Scheduled

def squashed (s : EventState) : Bool := s.flags.isSet .Squashed

def initialized (s : EventState) : Bool := s.flags &&& .InitMask = .Initialized

/-- `Event::serialize`: the flags are printed as a `short`. -/
def serialize (s : EventState) : Section where
  when_ := s.when_.toNat
  priority := s.priority.toInt
  flags := s.flags.toInt

/-- The end of `Event::unserialize`: the flags of the schedule, which are not true yet. -/
def settle (flags : Flags) : Flags :=
  if flags.isSet .Scheduled && !flags.isSet .Squashed then
    flags.clear (.Squashed ||| .Scheduled)
  else flags

/-- `Event::unserialize` -/
def unserialize (s : EventState) (cp : Section) : Except CheckpointFault EventState := do
  require .scheduled (!s.scheduled)
  let when_ ← toUnsigned 64 cp.when_
  let priority ← toSigned 8 cp.priority
  let flags ← toUnsigned 16 cp.flags
  require .notInitialized s.initialized
  return ⟨when_, priority, settle (Flags.set flags .Initialized)⟩

/-- The event in the heap of a queue. -/
def store (s : EventState) (e : Event) : Event :=
  { e with
    when_ := s.when_.toNat
    priority := s.priority.toInt
    scheduled := s.scheduled
    squashed := s.squashed
    managed := s.flags.isSet .Managed
    isExitEvent := s.flags.isSet .IsExitEvent
    isMainQueue := s.flags.isSet .IsMainQueue
    initialized := s.initialized }

end EventState

/-- `EventQueue::checkpointReschedule` -/
def EventQueue.checkpointReschedule (q : EventQueue) (rounds : ℕ) (event : Ptr) :
    Except Fail EventQueue :=
  if (q.heap event).scheduled then q.insert rounds event else .ok q

/-- `UNSERIALIZE_EVENT`, of the event `s` at `event`. -/
def EventQueue.unserializeEvent (q : EventQueue) (rounds : ℕ) (event : Ptr) (s : EventState)
    (cp : Section) : Except CheckpointFault (EventState × EventQueue) := do
  let s ← s.unserialize cp
  let q ← ((q.setEvent event (s.store (q.heap event))).checkpointReschedule rounds event).mapError
    .queue
  return (s, q)

/-! ## What is restored -/

theorem toUnsigned_of_nonneg {w : ℕ} {z : ℤ} (h : 0 ≤ z) (hlt : z < 2 ^ w) (hw : w ≤ 64) :
    toUnsigned w z = .ok (BitVec.ofInt w z) := by
  have hspace : (2 : ℤ) ^ w ≤ 2 ^ 64 := pow_le_pow_right₀ (by norm_num) hw
  have hmod : z % 2 ^ 64 = z := Int.emod_eq_of_lt h (hlt.trans_le hspace)
  unfold toUnsigned
  rw [hmod, decide_eq_true hlt]
  rfl

/-- **The numbers of a checkpoint** give back the event, except for what its schedule becomes. -/
theorem EventState.unserialize_serialize {o fresh : EventState} (ho : o.initialized = true)
    (hfresh : fresh.initialized = true) (hidle : fresh.scheduled = false) :
    fresh.unserialize o.serialize = .ok ⟨o.when_, o.priority, settle o.flags⟩ := by
  have hflags : o.flags &&& Flags.InitMask = Flags.Initialized := of_decide_eq_true ho
  have hwhen : toUnsigned 64 o.serialize.when_ = .ok o.when_ := by
    have hlt : (o.when_.toNat : ℤ) < 2 ^ 64 := by exact_mod_cast o.when_.isLt
    refine (toUnsigned_of_nonneg (Int.natCast_nonneg _) hlt le_rfl).trans ?_
    rw [BitVec.ofInt_natCast, BitVec.ofNat_toNat, BitVec.setWidth_eq]
  have hpriority : toSigned 8 o.serialize.priority = .ok o.priority := by
    have hlow := BitVec.le_toInt o.priority
    have hhigh := BitVec.toInt_lt (x := o.priority)
    refine bind_eq_ok.mpr ⟨(), require_ok (decide_eq_true ⟨hlow, hhigh⟩), ?_⟩
    exact congrArg Except.ok BitVec.ofInt_toInt
  have hword : toUnsigned 16 o.serialize.flags = .ok o.flags := by
    have hhigh : o.flags.toInt < 2 ^ 15 := BitVec.toInt_lt
    refine (toUnsigned_of_nonneg (Flags.toInt_nonneg hflags) (by omega) (by decide)).trans ?_
    exact congrArg Except.ok BitVec.ofInt_toInt
  unfold EventState.unserialize
  rw [hwhen, hpriority, hword, hidle, hfresh]
  show Except.ok (⟨o.when_, o.priority, settle (Flags.set o.flags Flags.Initialized)⟩ :
    EventState) = _
  rw [Flags.set_initialized hflags]

theorem EventState.persistent_settle (flags : Flags) :
    (settle flags).persistent = flags.persistent := by
  unfold settle
  split
  · exact Flags.persistent_clear flags
  · rfl

/-- An event that was scheduled stays so exactly when it was squashed. -/
theorem EventState.isSet_settle (flags : Flags) :
    (settle flags).isSet .Scheduled = (flags.isSet .Scheduled && flags.isSet .Squashed) := by
  unfold settle
  split
  next h =>
    rw [Bool.and_eq_true, Bool.not_eq_true'] at h
    rw [Flags.isSet_clear_scheduled, h.2, Bool.and_false]
  next h =>
    rw [Bool.and_eq_true, Bool.not_eq_true', not_and] at h
    cases hs : flags.isSet .Scheduled with
    | false => rfl
    | true =>
      rw [Bool.true_and]
      exact (Bool.eq_true_of_not_eq_false (h hs)).symm

/-! ## The queue -/

/-- The event is scheduled on the queue at the tick. -/
def EventQueue.ScheduledAt (q : EventQueue) (event : Ptr) (when_ : Tick) : Prop :=
  (q.heap event).scheduled = true ∧ (q.heap event).when_ = when_ ∧
    ∃ bins, Represents q.heap q.head bins ∧ event ∈ order bins

/-- The event `o` is restored as `s`: it is on the queue if it was scheduled and not squashed, and
its other flags are what they were. -/
structure Restored (o s : EventState) (event : Ptr) (q : EventQueue) : Prop where
  scheduled_iff : q.ScheduledAt event o.when_.toNat ↔ o.scheduled = true ∧ o.squashed = false
  flags : s.flags.persistent = o.flags.persistent

section Restore

variable {q : EventQueue} {bins : List Bin} {event : Ptr} {rounds : ℕ} {o fresh : EventState}

theorem unserializeEvent_ok {s : EventState} {q' : EventQueue} {cp : Section}
    (hs : fresh.unserialize cp = .ok s)
    (hq : (q.setEvent event (s.store (q.heap event))).checkpointReschedule rounds event = .ok q') :
    q.unserializeEvent rounds event fresh cp = .ok (s, q') := by
  unfold EventQueue.unserializeEvent
  rw [hs]
  show (Except.mapError CheckpointFault.queue _ >>= _) = _
  rw [hq]
  rfl

/-- **Restoring an event** inserts it when it was scheduled and squashed. -/
theorem unserializeEvent_eq (hr : Represents q.heap q.head bins) (he : event ∉ order bins)
    (hrounds : bins.length ≤ rounds) (ho : o.initialized = true) (hfresh : fresh.initialized = true)
    (hidle : fresh.scheduled = false) :
    ∃ s q', q.unserializeEvent rounds event fresh o.serialize = .ok (s, q') ∧
      s.flags.persistent = o.flags.persistent ∧
      (q'.ScheduledAt event o.when_.toNat ↔ o.scheduled = true ∧ o.squashed = true) := by
  let s : EventState := ⟨o.when_, o.priority, EventState.settle o.flags⟩
  have hs : fresh.unserialize o.serialize = .ok s :=
    EventState.unserialize_serialize ho hfresh hidle
  have hflags : s.flags.persistent = o.flags.persistent := EventState.persistent_settle o.flags
  have hstill : s.scheduled = (o.scheduled && o.squashed) := EventState.isSet_settle o.flags
  let x : Event := s.store (q.heap event)
  have hx : Represents (q.setEvent event x).heap (q.setEvent event x).head bins :=
    hr.set event x fun hmem => absurd hmem he
  have hself : (q.setEvent event x).heap event = x := Heap.set_self _ _ _
  have hflag : ((q.setEvent event x).heap event).scheduled = s.scheduled :=
    congrArg Event.scheduled hself
  cases hsched : s.scheduled with
  | false =>
    rw [hsched] at hflag
    refine ⟨s, q.setEvent event x, unserializeEvent_ok hs (if_neg ?_), hflags, ?_⟩
    · exact ne_true_of_eq_false hflag
    · rw [hsched] at hstill
      constructor
      · rintro ⟨hset, -⟩
        exact absurd (hflag.symm.trans hset) Bool.false_ne_true
      · rintro ⟨h1, h2⟩
        rw [h1, h2] at hstill
        cases hstill
  | true =>
    obtain ⟨h', head', bins', hinsert, hr', hlinks, hentries⟩ := insert_represents hx he hrounds
    rw [hsched] at hflag
    refine ⟨s, { q.setEvent event x with heap := h', head := head' },
      unserializeEvent_ok hs ((if_pos hflag).trans hinsert), hflags, ?_⟩
    · rw [hsched] at hstill
      have hboth := Bool.and_eq_true_iff.mp hstill.symm
      refine ⟨fun _ => hboth, fun _ => ⟨?_, ?_, bins', hr', ?_⟩⟩
      · show (h' event).scheduled = true
        rw [hlinks.field Event.scheduled (fun _ => rfl), hself]
        exact hsched
      · show (h' event).when_ = o.when_.toNat
        rw [hlinks.field Event.when_ (fun _ => rfl), hself]
        rfl
      · have hmem : entry (q.setEvent event x).heap event ∈ entries h' bins' := by
          rw [hentries]
          exact (List.perm_orderedInsert _ _ _).mem_iff.mpr List.mem_cons_self
        obtain ⟨p, hp, heq⟩ := List.mem_map.mp hmem
        rwa [show p = event from congrArg Entry.event heq] at hp

/-- **Which events a checkpoint restores**: those that were not scheduled. -/
theorem restored_iff (hr : Represents q.heap q.head bins) (he : event ∉ order bins)
    (hrounds : bins.length ≤ rounds) (ho : o.initialized = true) (hfresh : fresh.initialized = true)
    (hidle : fresh.scheduled = false) :
    ∃ s q', q.unserializeEvent rounds event fresh o.serialize = .ok (s, q') ∧
      (Restored o s event q' ↔ o.scheduled = false) := by
  obtain ⟨s, q', hrun, hflags, hsched⟩ := unserializeEvent_eq hr he hrounds ho hfresh hidle
  refine ⟨s, q', hrun, fun h => ?_, fun hnot => ⟨?_, hflags⟩⟩
  · have hiff := hsched.symm.trans h.scheduled_iff
    cases hs : o.scheduled with
    | false => rfl
    | true =>
        rw [hs] at hiff
        cases hq : o.squashed <;> simp [hq] at hiff
  · rw [hsched, hnot]
    simp

end Restore

/-- A queue with nothing on it. -/
def idleQueue : EventQueue := ⟨0, fun _ => {}, none, 0⟩

theorem represents_idleQueue : Represents idleQueue.heap idleQueue.head [] where
  tops := rfl
  inBin _ h := absurd h List.not_mem_nil
  nodup := List.nodup_nil
  sameKey _ h := absurd h List.not_mem_nil
  sorted := .nil

/-- A new event. -/
def newEvent : EventState := ⟨0, 0, .Initialized⟩

/-- An event at tick 100, with the given flags. -/
def eventAt100 (flags : Flags) : EventState := ⟨100, 0, .set .Initialized flags⟩

theorem restored_managed :
    ∃ s q', idleQueue.unserializeEvent 0 7 newEvent (eventAt100 .Managed).serialize = .ok (s, q') ∧
      (Restored (eventAt100 .Managed) s 7 q' ↔ (eventAt100 .Managed).scheduled = false) :=
  restored_iff represents_idleQueue List.not_mem_nil le_rfl (by decide) (by decide) (by decide)

/-- A scheduled event does not come back on the queue, and a squashed one does. -/
theorem scheduled_lost :
    (∃ s q', idleQueue.unserializeEvent 0 7 newEvent (eventAt100 .Scheduled).serialize =
      .ok (s, q') ∧ ¬q'.ScheduledAt 7 100 ∧ ¬Restored (eventAt100 .Scheduled) s 7 q') ∧
    ∃ s q', idleQueue.unserializeEvent 0 7 newEvent
      (eventAt100 (.Scheduled ||| .Squashed)).serialize = .ok (s, q') ∧
      q'.ScheduledAt 7 100 ∧ ¬Restored (eventAt100 (.Scheduled ||| .Squashed)) s 7 q' := by
  constructor
  · obtain ⟨s, q', hrun, -, hiff⟩ := @unserializeEvent_eq idleQueue [] 7 0
      (eventAt100 .Scheduled) newEvent represents_idleQueue List.not_mem_nil le_rfl (by decide)
      (by decide) (by decide)
    have hnot : ¬q'.ScheduledAt 7 100 := fun h => absurd (hiff.mp h) (by decide)
    exact ⟨s, q', hrun, hnot, fun h => hnot (h.scheduled_iff.mpr (by decide))⟩
  · obtain ⟨s, q', hrun, -, hiff⟩ := @unserializeEvent_eq idleQueue [] 7 0
      (eventAt100 (.Scheduled ||| .Squashed)) newEvent represents_idleQueue List.not_mem_nil le_rfl
      (by decide) (by decide) (by decide)
    have hon : q'.ScheduledAt 7 100 := hiff.mpr (by decide)
    exact ⟨s, q', hrun, hon, fun h => absurd (h.scheduled_iff.mp hon) (by decide)⟩

end Gem5.Sim
