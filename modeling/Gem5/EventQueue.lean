/-
# The event queue

Embedding of `Event` and `EventQueue` (`sim/eventq.hh`, `sim/eventq.cc`) in serial
mode, at the level of the pointers.  The queue is a linked list of bins, one for
each `(when, priority)`; a bin is a stack linked by `nextInBin`, and only the top of
a bin has a meaningful `nextBin`.

Events live in a heap indexed by their addresses.  The list walks get a number of
rounds; the state counts the insertions made so far, which bounds the length of
every list (`EventBins.lean` shows that the rounds never run out).

Event handlers run in the middle of `serviceOne`: the state records the event
being processed, and the operations of its handler are steps of their own.
Locking, the asynchronous queue of the parallel mode and tracing are left out.
-/
import Gem5.Runs
import Gem5.LinkedList

open Runs

namespace Gem5.Sim

abbrev Tick := ℕ

abbrev Ptr := ℕ

/-! ## Events -/

/-- `Event`: the two links, the key and the flags.  `queue` is the queue the event
was last scheduled on. -/
structure Event where
  nextBin : Option Ptr := none
  nextInBin : Option Ptr := none
  when_ : Tick := 0
  priority : ℤ := 0
  scheduled : Bool := false
  squashed : Bool := false
  managed : Bool := false
  isExitEvent : Bool := false
  isMainQueue : Bool := false
  initialized : Bool := true
  queue : Option ℕ := none
  deriving DecidableEq, Repr

abbrev Heap := Ptr → Event

/-- `operator<` -/
def Event.lt (l r : Event) : Bool :=
  l.when_ < r.when_ || (l.when_ = r.when_ && l.priority < r.priority)

/-- `operator<=` -/
def Event.le (l r : Event) : Bool :=
  l.when_ < r.when_ || (l.when_ = r.when_ && l.priority ≤ r.priority)

/-- `operator==` -/
def Event.eqv (l r : Event) : Bool := l.when_ = r.when_ && l.priority = r.priority

/-- The assertions and panics of the queue, and the null dereferences. -/
inductive Fail where
  /-- `panic("event not found!")` -/
  | notFound
  /-- `assert(event->queue == this)` in `remove` -/
  | wrongQueue
  /-- `assert(when >= getCurTick())` -/
  | inThePast
  /-- `assert(!event->scheduled())` in `schedule` -/
  | alreadyScheduled
  /-- `assert(event->scheduled())` in `deschedule` and `reschedule` -/
  | notScheduled
  /-- `assert(event->initialized())` -/
  | notInitialized
  /-- `serviceOne` on an empty queue dereferences the null head -/
  | emptyQueue
  /-- `assert(!Managed || !IsMainQueue)` for an exit event -/
  | managedExit
  /-- an operation in a state in which the code cannot be -/
  | notRunning
  /-- the rounds of a list walk ran out -/
  | outOfRounds
  deriving DecidableEq, Repr

/-- Assign through a pointer. -/
def Heap.set (h : Heap) (p : Ptr) (e : Event) : Heap := Function.update h p e

/-- `p->nextBin = o` -/
def Heap.setNextBin (h : Heap) (p : Ptr) (o : Option Ptr) : Heap :=
  h.set p { h p with nextBin := o }

/-- `p->nextInBin = o` -/
def Heap.setNextInBin (h : Heap) (p : Ptr) (o : Option Ptr) : Heap :=
  h.set p { h p with nextInBin := o }

theorem Heap.set_self (h : Heap) (p : Ptr) (e : Event) : h.set p e p = e := by
  unfold Heap.set
  exact Function.update_self p e h

theorem Heap.set_of_ne (h : Heap) {p p' : Ptr} (e : Event) (hne : p' ≠ p) : h.set p e p' = h p' := by
  unfold Heap.set
  exact Function.update_of_ne hne e h

/-! ## Insertion and removal -/

/-- `Event::insertBefore`: the event becomes the top of a new bin in front of `curr`,
or of the bin of `curr`. -/
def insertBefore (h : Heap) (event : Ptr) (curr : Option Ptr) : Heap :=
  match curr with
  | none => h.set event { h event with nextBin := none, nextInBin := none }
  | some c =>
      if (h event).lt (h c) then h.set event { h event with nextBin := some c, nextInBin := none }
      else h.set event { h event with nextBin := (h c).nextBin, nextInBin := some c }

/-- `EventQueue`, without its name and locks. -/
structure EventQueue where
  id : ℕ
  heap : Heap
  head : Option Ptr
  curTick : Tick

/-- The walk along the bins that `insert` and `remove` share: skip the bins before
the event. -/
def findBin (h : Heap) (rounds : ℕ) (event head : Ptr) : Option (Ptr × Option Ptr) :=
  Linked.advance (fun p => (h p).nextBin) (fun p => (h p).lt (h event)) rounds head
    (h head).nextBin

/-- `EventQueue::insert` -/
def EventQueue.insert (q : EventQueue) (rounds : ℕ) (event : Ptr) : Except Fail EventQueue :=
  match q.head with
  | none => .ok { q with heap := insertBefore q.heap event none, head := some event }
  | some head =>
      if (q.heap event).le (q.heap head) then
        .ok { q with heap := insertBefore q.heap event (some head), head := some event }
      else
        match findBin q.heap rounds event head with
        | none => .error .outOfRounds
        | some (prev, curr) =>
            let h := insertBefore q.heap event curr
            .ok { q with heap := h.setNextBin prev (some event) }

/-- `Event::removeItem`: the new heap and the new top of the bin. -/
def removeItem (h : Heap) (rounds : ℕ) (event top : Ptr) : Except Fail (Heap × Option Ptr) :=
  if event = top then
    match (h top).nextInBin with
    | none => .ok (h, (h top).nextBin)
    | some next => .ok (h.setNextBin next (h top).nextBin, some next)
  else
    match Linked.advance (fun p => (h p).nextInBin) (fun p => p ≠ event) rounds top
        (h top).nextInBin with
    | none => .error .outOfRounds
    | some (_, none) => .error .notFound
    | some (curr, some next) =>
        .ok (h.setNextInBin curr (h next).nextInBin, some top)

/-- `EventQueue::remove` -/
def EventQueue.remove (q : EventQueue) (rounds : ℕ) (event : Ptr) : Except Fail EventQueue :=
  match q.head with
  | none => .error .notFound
  | some head =>
      if (q.heap event).queue ≠ some q.id then .error .wrongQueue
      else if (q.heap head).eqv (q.heap event) then do
        let (h, top) ← removeItem q.heap rounds event head
        return { q with heap := h, head := top }
      else
        match findBin q.heap rounds event head with
        | none => .error .outOfRounds
        | some (_, none) => .error .notFound
        | some (prev, some curr) =>
            if (q.heap curr).eqv (q.heap event) then do
              let (h, top) ← removeItem q.heap rounds event curr
              return { q with heap := h.setNextBin prev top }
            else .error .notFound

/-! ## Scheduling -/

/-- Change the event at `p`. -/
def EventQueue.setEvent (q : EventQueue) (p : Ptr) (e : Event) : EventQueue :=
  { q with heap := q.heap.set p e }

/-- `Event::setWhen` -/
def EventQueue.setWhen (q : EventQueue) (p : Ptr) (when_ : Tick) : EventQueue :=
  q.setEvent p { q.heap p with when_ := when_, queue := some q.id }

/-- `Event::release`: a managed event that is not scheduled is deleted, and its
destructor clears the flags. -/
def Event.release (e : Event) : Event :=
  if e.managed && !e.scheduled then
    { e with
      scheduled := false
      squashed := false
      managed := false
      isExitEvent := false
      isMainQueue := false
      initialized := false }
  else e

/-- `event->release()` -/
def EventQueue.release (q : EventQueue) (p : Ptr) : EventQueue :=
  q.setEvent p (q.heap p).release

/-- The event is scheduled on this queue. -/
def EventQueue.owns (q : EventQueue) (e : Event) : Bool := e.scheduled && e.queue = some q.id

/-- `EventQueue::schedule` -/
def EventQueue.schedule (q : EventQueue) (rounds : ℕ) (event : Ptr) (when_ : Tick) :
    Except Fail EventQueue := do
  require .inThePast (q.curTick ≤ when_)
  require .alreadyScheduled (!(q.heap event).scheduled)
  require .notInitialized (q.heap event).initialized
  let q ← (q.setWhen event when_).insert rounds event
  return q.setEvent event { q.heap event with scheduled := true }

/-- `EventQueue::deschedule` -/
def EventQueue.deschedule (q : EventQueue) (rounds : ℕ) (event : Ptr) : Except Fail EventQueue := do
  require .notScheduled (q.heap event).scheduled
  require .notInitialized (q.heap event).initialized
  let q ← q.remove rounds event
  let q := q.setEvent event { q.heap event with squashed := false, scheduled := false }
  return q.release event

/-- `EventQueue::reschedule` -/
def EventQueue.reschedule (q : EventQueue) (rounds : ℕ) (event : Ptr) (when_ : Tick)
    (always : Bool) : Except Fail EventQueue := do
  require .inThePast (q.curTick ≤ when_)
  require .notScheduled (always || (q.heap event).scheduled)
  require .notInitialized (q.heap event).initialized
  let q ← (if (q.heap event).scheduled then q.remove rounds event else .ok q)
  let q ← (q.setWhen event when_).insert rounds event
  return q.setEvent event { q.heap event with squashed := false, scheduled := true }

/-! ## Servicing -/

/-- The part of `serviceOne` before the handler: the head leaves the queue. -/
def EventQueue.popHead (q : EventQueue) (event : Ptr) : EventQueue :=
  let q := q.setEvent event { q.heap event with scheduled := false }
  match (q.heap event).nextInBin with
  | some next =>
      { q with heap := q.heap.setNextBin next (q.heap event).nextBin, head := some next }
  | none => { q with head := (q.heap event).nextBin }

/-- The queue with the position of the code that services it: `limit` is the argument
of a running `serviceEvents`, `current` the event whose handler is running, and
`inserted` counts the insertions. -/
structure Machine where
  eq : EventQueue
  limit : Option Tick
  current : Option Ptr
  inserted : ℕ

/-- `serviceOne` up to the handler.  A squashed event is not processed. -/
def Machine.startService (m : Machine) (event : Ptr) : Machine :=
  let q := m.eq.popHead event
  if (q.heap event).squashed then
    { m with eq := (q.setEvent event { q.heap event with squashed := false }).release event }
  else { m with eq := { q with curTick := (q.heap event).when_ }, current := some event }

/-- `serviceOne` after the handler. -/
def Machine.endService (m : Machine) (event : Ptr) : Except Fail Machine :=
  if (m.eq.heap event).isExitEvent then
    if (m.eq.heap event).managed && (m.eq.heap event).isMainQueue then .error .managedExit
    else .ok { m with current := none }
  else .ok { m with eq := m.eq.release event, current := none }

/-- The operations on the queue.  `finish` is the return of the running handler and
`iterate` one evaluation of the loop condition of `serviceEvents`. -/
inductive Action where
  | schedule (event : Ptr) (when_ : Tick)
  | deschedule (event : Ptr)
  | reschedule (event : Ptr) (when_ : Tick) (always : Bool)
  | squash (event : Ptr)
  | serviceOne
  | serviceEvents (when_ : Tick)
  | iterate
  | finish
  /-- an event outside this queue is constructed, destroyed, or used elsewhere -/
  | foreign (event : Ptr) (new : Event)

/-- One step. -/
def Machine.step (m : Machine) : Action → Except Fail Machine
  | .schedule event when_ => do
      let q ← m.eq.schedule m.inserted event when_
      return { m with eq := q, inserted := m.inserted + 1 }
  | .deschedule event => do
      let q ← m.eq.deschedule m.inserted event
      return { m with eq := q }
  | .reschedule event when_ always => do
      let q ← m.eq.reschedule m.inserted event when_ always
      return { m with eq := q, inserted := m.inserted + 1 }
  | .squash event =>
      .ok { m with eq := m.eq.setEvent event { m.eq.heap event with squashed := true } }
  | .serviceOne =>
      if m.limit ≠ none ∨ m.current ≠ none then .error .notRunning
      else
        match m.eq.head with
        | none => .error .emptyQueue
        | some event => .ok (m.startService event)
  | .serviceEvents when_ =>
      if m.limit ≠ none ∨ m.current ≠ none then .error .notRunning
      else .ok { m with limit := some when_ }
  | .iterate =>
      match m.limit, m.current with
      | some when_, none =>
          match m.eq.head with
          | none => .ok { m with eq := { m.eq with curTick := when_ }, limit := none }
          | some event =>
              if (m.eq.heap event).when_ > when_ then
                .ok { m with eq := { m.eq with curTick := when_ }, limit := none }
              else .ok (m.startService event)
      | _, _ => .error .notRunning
  | .finish =>
      match m.current with
      | none => .error .notRunning
      | some event => m.endService event
  | .foreign event new =>
      if m.eq.owns (m.eq.heap event) || m.eq.owns new then .error .notRunning
      else .ok { m with eq := m.eq.setEvent event new }

/-- An empty queue with any events outside it. -/
def Machine.init (id : ℕ) (heap : Heap) (curTick : Tick) : Machine where
  eq := { id := id, heap := heap, head := none, curTick := curTick }
  limit := none
  current := none
  inserted := 0

end Gem5.Sim
