/-
# Simulated time

What holds over whole runs of the event queue about time: the current tick never goes
back, no scheduled event lies in the past, and every handler runs at the tick its
event was last scheduled for, in the order of the keys, except that an event can be
scheduled in front of those already served.

`Change` says once what a step does to the time, to the running handler and to the
scheduled events; `Traced` records beside the machine what was asked for and what was
served.  `serviceEvents` sets the time to its argument, whatever that is: with an
argument in the past, time goes back (`serviceEvents_turns_back`).
-/
import Gem5.EventAgenda

open Linked Runs

namespace Gem5.Sim

/-! ## What a step does -/

/-- The event and the time of a `schedule` or `reschedule`. -/
def Action.enqueues : Action → Option (Ptr × Tick)
  | .schedule e w => some (e, w)
  | .reschedule e w _ => some (e, w)
  | _ => none

/-- The event is scheduled on the queue of the machine. -/
def Machine.holds (m : Machine) (p : Ptr) : Prop := m.eq.owns (m.eq.heap p) = true

/-- The key of an event. -/
def Machine.key (m : Machine) (p : Ptr) : Tick ×ₗ ℤ := (m.eq.heap p).key

/-- If the event is scheduled in `m'`, it was so before with the same key. -/
def Kept (m m' : Machine) (p : Ptr) : Prop := m'.holds p → m.holds p ∧ m'.key p = m.key p

/-- The changes that a step can make. -/
inductive Change (m : Machine) (a : Action) (m' : Machine) : Prop
  /-- an event is scheduled or rescheduled -/
  | enqueue (e : Ptr) (w : Tick) (ha : a.enqueues = some (e, w)) (hw : m.eq.curTick ≤ w)
      (htime : m'.eq.curTick = m.eq.curTick) (hlimit : m'.limit = m.limit)
      (hcurrent : m'.current = m.current) (hwhen : (ofLex (m'.key e)).1 = w)
      (hkept : ∀ p ≠ e, Kept m m' p) (hlost : ∀ p, m.holds p → m'.holds p)
  /-- events leave the queue without being processed -/
  | quiet (ha : a.enqueues = none)
      (htime : m'.eq.curTick = m.eq.curTick) (hlimit : m'.limit = m.limit)
      (hcurrent : m'.current = m.current ∨ m'.current = none)
      (hkept : ∀ p, Kept m m' p)
      (hlost : ∀ p, m.holds p → ¬m'.holds p →
        a = .deschedule p ∨ (m.eq.heap p).squashed = true)
  /-- the handler of the first event starts -/
  | serve (e : Ptr) (ha : a.enqueues = none) (hheld : m.holds e) (hgone : ¬m'.holds e)
      (hfirst : ∀ p, m.holds p → m.key e ≤ m.key p)
      (hbound : ∀ w, m.limit = some w → (ofLex (m.key e)).1 ≤ w)
      (htime : m'.eq.curTick = (ofLex (m.key e)).1) (hlimit : m'.limit = m.limit)
      (hidle : m.current = none) (hcurrent : m'.current = some e) (hkey : m'.key e = m.key e)
      (hkept : ∀ p, Kept m m' p) (hlost : ∀ p, m.holds p → p ≠ e → m'.holds p)
  /-- `serviceEvents` is called -/
  | enter (w : Tick) (ha : a = .serviceEvents w) (hm : m' = { m with limit := some w })
  /-- `serviceEvents` returns -/
  | leave (w : Tick) (ha : a.enqueues = none) (hlimit : m.limit = some w)
      (hm : m' = { m with eq := { m.eq with curTick := w }, limit := none })
      (hlater : ∀ p, m.holds p → w < (ofLex (m.key p)).1)

section Steps

variable {m : Machine} {g : Agenda} {bins : List Bin}

variable {q : EventQueue} {es : List Entry} {a : Action}

theorem owns_congr {q' : EventQueue} (hid : q'.id = q.id) : q'.owns = q.owns := by
  funext y
  unfold EventQueue.owns
  rw [hid]

/-- An operation with an outcome keeps every other event. -/
theorem Outcome.kept {e : Ptr} {x : Event} (ho : Outcome m.eq e x (.ok q) es) (m' : Machine)
    (hid : m'.eq.id = m.eq.id) (hheap : m'.eq.heap = q.heap) {p : Ptr} (hp : p ≠ e) :
    (m'.holds p ↔ m.holds p) ∧ m'.key p = m.key p := by
  obtain ⟨h', head', bins', hq, -, hl, -⟩ := ho
  obtain rfl := Except.ok.inj hq
  unfold Machine.holds Machine.key
  rw [owns_congr hid, hheap]
  exact ⟨by rw [← hl.at_of_ne hp m.eq.owns (owns_data m.eq)],
    hl.at_of_ne hp Event.key fun y => rfl⟩

/-- The event of the operation itself. -/
theorem Outcome.changed {e : Ptr} {x : Event} (ho : Outcome m.eq e x (.ok q) es) (m' : Machine)
    (hid : m'.eq.id = m.eq.id) (hheap : m'.eq.heap = q.heap) :
    (m'.holds e ↔ m.eq.owns x = true) ∧ m'.key e = x.key := by
  obtain ⟨h', head', bins', hq, -, hl, -⟩ := ho
  obtain rfl := Except.ok.inj hq
  unfold Machine.holds Machine.key
  rw [owns_congr hid, hheap]
  exact ⟨by rw [← hl.at_self m.eq.owns (owns_data m.eq)],
    hl.at_self Event.key fun y => rfl⟩

theorem Outcome.id_eq {e : Ptr} {x : Event} (ho : Outcome m.eq e x (.ok q) es) :
    q.id = m.eq.id ∧ q.curTick = m.eq.curTick := by
  obtain ⟨h', head', bins', hq, -⟩ := ho
  obtain rfl := Except.ok.inj hq
  exact ⟨rfl, rfl⟩

/-- The first event is not behind any other one. -/
theorem Refines.first_le (hR : Refines m g bins) {x : Entry} (hes : g.entries = x :: es) :
    m.holds x.event ∧ m.key x.event = x.key ∧ ∀ p, m.holds p → m.key x.event ≤ m.key p := by
  have hents := hR.entries_eq.trans hes
  have hx : x ∈ entries m.eq.heap bins := by
    rw [hents]
    exact List.mem_cons_self
  obtain ⟨p₀, hp₀, rfl⟩ := List.mem_map.mp hx
  refine ⟨(hR.mem_iff p₀).mp hp₀, rfl, ?_⟩
  intro p hp
  have hmem : entry m.eq.heap p ∈ entries m.eq.heap bins :=
    List.mem_map_of_mem ((hR.mem_iff p).mpr hp)
  have hsorted := hR.represents.sorted_entries
  rw [hents] at hmem hsorted
  rcases List.mem_cons.mp hmem with heq | hmem
  · exact (congrArg Entry.key heq).ge
  · exact (List.pairwise_cons.mp hsorted).1 _ hmem

/-- Serving the first event: it is processed unless it is squashed. -/
theorem Refines.change_serve (hR : Refines m g bins) {x : Entry} (hes : g.entries = x :: es)
    (ha : a.enqueues = none) (hidle : m.current = none)
    (hbound : ∀ w, m.limit = some w → (ofLex x.key).1 ≤ w) :
    Change m a (m.startService x.event) := by
  obtain ⟨hheld, hkey, hfirst⟩ := hR.first_le hes
  rcases outcome_startService hR.represents (hR.entries_eq.trans hes) with
    ⟨hsq, q, ho, hm⟩ | ⟨hsq, q, ho, hm⟩
  · rw [hm]
    obtain ⟨hid, htime⟩ := ho.id_eq
    have hself := ho.changed { m with eq := q } hid rfl
    have hgone : ¬Machine.holds { m with eq := q } x.event := by
      rw [hself.1, owns_release]
      intro hcon
      exact absurd (owns_iff.mp hcon).1 (by simp)
    refine .quiet ha htime rfl (.inl rfl) ?_ ?_
    · intro p
      by_cases hp : p = x.event
      · subst hp
        exact fun hcon => absurd hcon hgone
      · have hother := ho.kept { m with eq := q } hid rfl hp
        exact fun hheld => ⟨hother.1.mp hheld, hother.2⟩
    · intro p hheld hlost
      by_cases hp : p = x.event
      · subst hp
        exact .inr hsq
      · have hother := ho.kept { m with eq := q } hid rfl hp
        exact absurd (hother.1.mpr hheld) hlost
  · rw [hm]
    obtain ⟨hid, -⟩ := ho.id_eq
    set m' : Machine := { m with
      eq := { q with curTick := (m.eq.heap x.event).when_ }
      current := some x.event } with hm'
    have hself := ho.changed m' hid rfl
    have hgone : ¬m'.holds x.event := by
      rw [hself.1]
      intro hcon
      exact absurd (owns_iff.mp hcon).1 (by simp)
    refine .serve x.event ha hheld hgone hfirst ?_ rfl rfl hidle rfl hself.2 ?_ ?_
    · rw [hkey]
      exact hbound
    · intro p hheld'
      by_cases hp : p = x.event
      · subst hp
        exact absurd hheld' hgone
      · have hother := ho.kept m' hid rfl hp
        exact ⟨hother.1.mp hheld', hother.2⟩
    · intro p hheld' hp
      exact (ho.kept m' hid rfl hp).1.mpr hheld'

/-- Scheduling an event that is in the queue afterwards. -/
theorem Outcome.change_enqueue {e : Ptr} {x : Event} (ho : Outcome m.eq e x (.ok q) es) {w : Tick}
    {n : ℕ} (ha : a.enqueues = some (e, w)) (hw : m.eq.curTick ≤ w) (hx : m.eq.owns x = true)
    (hwhen : x.when_ = w) : Change m a { m with eq := q, inserted := n } := by
  obtain ⟨hid, htime⟩ := ho.id_eq
  have hself := ho.changed { m with eq := q, inserted := n } hid rfl
  refine .enqueue e w ha hw htime rfl rfl ?_ ?_ ?_
  · rw [hself.2]
    exact hwhen
  · intro p hp hheld
    have hother := ho.kept { m with eq := q, inserted := n } hid rfl hp
    exact ⟨hother.1.mp hheld, hother.2⟩
  · intro p hheld
    by_cases hp : p = e
    · subst hp
      exact hself.1.mpr hx
    · exact (ho.kept { m with eq := q, inserted := n } hid rfl hp).1.mpr hheld

/-- An operation that adds no event. -/
theorem Outcome.change_quiet {e : Ptr} {x : Event} (ho : Outcome m.eq e x (.ok q) es)
    {c : Option Ptr} (ha : a.enqueues = none) (hcurrent : c = m.current ∨ c = none)
    (hx : m.eq.owns x = true → m.holds e ∧ x.key = m.key e)
    (hlost : m.holds e → m.eq.owns x = false → a = .deschedule e) :
    Change m a { m with eq := q, current := c } := by
  obtain ⟨hid, htime⟩ := ho.id_eq
  have hself := ho.changed { m with eq := q, current := c } hid rfl
  refine .quiet ha htime rfl hcurrent ?_ ?_
  · intro p hheld
    by_cases hp : p = e
    · subst hp
      rw [hself.2]
      exact hx (hself.1.mp hheld)
    · have hother := ho.kept { m with eq := q, current := c } hid rfl hp
      exact ⟨hother.1.mp hheld, hother.2⟩
  · intro p hheld hgone
    by_cases hp : p = e
    · subst hp
      rw [hself.1, Bool.not_eq_true] at hgone
      exact .inl (hlost hheld hgone)
    · have hother := ho.kept { m with eq := q, current := c } hid rfl hp
      exact absurd (hother.1.mpr hheld) hgone

/-- **What a step can do.** -/
theorem Refines.change (hR : Refines m g bins) {m' : Machine} (hstep : m.step a = .ok m') :
    Change m a m' := by
  cases a with
  | schedule e w =>
    obtain ⟨q, hq, hm⟩ := bind_eq_ok.mp hstep
    obtain rfl := Except.ok.inj hm
    obtain ⟨hw, hsched, hinit⟩ := schedule_checks hq
    have ho := outcome_schedule hR.represents (hR.not_mem_of_idle hsched) hR.rounds hw hsched hinit
    rw [hq] at ho
    exact ho.change_enqueue rfl hw (owns_iff.mpr ⟨rfl, rfl⟩) rfl
  | deschedule e =>
    obtain ⟨q, hq, hm⟩ := bind_eq_ok.mp hstep
    obtain rfl := Except.ok.inj hm
    obtain ⟨howns, hinit⟩ := deschedule_checks hq
    have ho := outcome_deschedule hR.represents ((hR.mem_iff e).mpr howns) hR.rounds howns hinit
    rw [hq] at ho
    refine ho.change_quiet rfl (.inl rfl) ?_ (fun _ _ => rfl)
    rw [owns_release]
    intro hcon
    exact absurd (owns_iff.mp hcon).1 (by simp)
  | reschedule e w always =>
    obtain ⟨q, hq, hm⟩ := bind_eq_ok.mp hstep
    obtain rfl := Except.ok.inj hm
    obtain ⟨hw, hsched, hinit, hqueue⟩ := reschedule_checks hq
    have hmem : e ∈ order bins ↔ (m.eq.heap e).scheduled = true := by
      rw [hR.mem_iff, owns_iff]
      exact and_iff_left_of_imp hqueue
    have ho := outcome_reschedule hR.represents hmem hR.rounds hw hsched hqueue hinit
    rw [hq] at ho
    exact ho.change_enqueue rfl hw (owns_iff.mpr ⟨rfl, rfl⟩) rfl
  | squash e =>
    obtain rfl := Except.ok.inj hstep
    have ho := outcome_set hR.represents e { m.eq.heap e with squashed := true }
      fun _ => ⟨rfl, rfl, rfl⟩
    refine ho.change_quiet rfl (.inl rfl) (fun h => ⟨h, rfl⟩) ?_
    intro hheld hno
    exact absurd (hheld.symm.trans hno) (by simp)
  | serviceOne =>
    rw [Machine.step, hR.head] at hstep
    split at hstep
    · cases hstep
    · rename_i hidle
      rw [not_or, not_not, not_not] at hidle
      cases hes : g.entries with
      | nil =>
        rw [hes] at hstep
        cases hstep
      | cons x es =>
        rw [hes] at hstep
        obtain rfl := Except.ok.inj hstep
        refine hR.change_serve hes rfl hidle.2 ?_
        intro w hw
        rw [hidle.1] at hw
        cases hw
  | serviceEvents w =>
    rw [Machine.step] at hstep
    split at hstep
    · cases hstep
    · exact .enter w rfl (Except.ok.inj hstep).symm
  | iterate =>
    rw [Machine.step, hR.head] at hstep
    cases hlim : m.limit with
    | none =>
      rw [hlim] at hstep
      cases hstep
    | some w =>
      cases hcur : m.current with
      | some c =>
        rw [hlim, hcur] at hstep
        cases hstep
      | none =>
        rw [hlim, hcur] at hstep
        cases hes : g.entries with
        | nil =>
          rw [hes] at hstep
          obtain rfl := Except.ok.inj hstep
          refine .leave w rfl hlim (by rw [hcur]) ?_
          intro p hp
          have hmem := (hR.mem_iff p).mpr hp
          rw [← hR.events, hes] at hmem
          cases hmem
        | cons x es =>
          obtain ⟨-, hkey, hfirst⟩ := hR.first_le hes
          have hwhen : (m.eq.heap x.event).when_ = (ofLex x.key).1 := by
            rw [← hkey]
            rfl
          rw [hes] at hstep
          dsimp only [List.head?_cons, Option.map_some] at hstep
          rw [hwhen] at hstep
          split at hstep
          · rename_i hgt
            obtain rfl := Except.ok.inj hstep
            refine .leave w rfl hlim (by rw [hcur]) ?_
            intro p hp
            have hle := hfirst p hp
            rw [hkey] at hle
            exact lt_of_lt_of_le hgt (Prod.Lex.monotone_fst_ofLex hle)
          · rename_i hgt
            obtain rfl := Except.ok.inj hstep
            refine hR.change_serve hes rfl hcur ?_
            intro w' hw'
            obtain rfl := Option.some.inj (hlim.symm.trans hw')
            exact not_lt.mp hgt
  | finish =>
    rw [Machine.step] at hstep
    cases hcur : m.current with
    | none =>
      rw [hcur] at hstep
      cases hstep
    | some e =>
      rw [hcur] at hstep
      dsimp only at hstep
      unfold Machine.endService at hstep
      split at hstep
      · split at hstep
        · cases hstep
        · obtain rfl := Except.ok.inj hstep
          refine .quiet rfl rfl rfl (.inr rfl) (fun p hheld => ⟨hheld, rfl⟩) ?_
          intro p hheld hgone
          exact absurd hheld hgone
      · obtain rfl := Except.ok.inj hstep
        have ho := outcome_set hR.represents e (m.eq.heap e).release
          fun _ => Event.release_links _
        refine ho.change_quiet rfl (.inr rfl) ?_ ?_
        · rw [owns_release]
          exact fun h => ⟨h, (Event.release_links _).2.2⟩
        · rw [owns_release]
          intro hheld hno
          exact absurd (hheld.symm.trans hno) (by simp)
  | foreign e new =>
    rw [Machine.step] at hstep
    split at hstep
    · cases hstep
    · rename_i hno
      rw [Bool.or_eq_true, not_or, Bool.not_eq_true, Bool.not_eq_true] at hno
      obtain rfl := Except.ok.inj hstep
      have hnot := hR.not_mem hno.1
      have ho := outcome_set hR.represents e new fun hmem => absurd hmem hnot
      refine ho.change_quiet rfl (.inl rfl) ?_ ?_
      · intro hcon
        exact absurd (hcon.symm.trans hno.2) (by simp)
      · intro hheld _
        exact absurd ((hR.mem_iff e).mpr hheld) hnot

end Steps

/-! ## Recording -/

/-- A processed event: its key, the tick its handler ran at, the tick it was last
scheduled for, and how many events had been processed when that was asked for. -/
structure Served where
  event : Ptr
  key : Tick ×ₗ ℤ
  tick : Tick
  target : Tick
  stamp : ℕ

/-- The machine with its record. -/
structure Traced where
  machine : Machine
  target : Ptr → Tick
  stamp : Ptr → ℕ
  log : List Served

/-- Record a request to schedule. -/
def Traced.noteTarget (s : Traced) (a : Action) : Traced :=
  match a.enqueues with
  | some (e, w) =>
      { s with
        target := Function.update s.target e w
        stamp := Function.update s.stamp e s.log.length }
  | none => s

/-- The handler that starts between two states of the machine. -/
def started (m m' : Machine) : Option Ptr := if m.current = none then m'.current else none

/-- Record a handler that starts, and move on to the new state. -/
def Traced.noteServed (s : Traced) (m : Machine) : Traced :=
  { s with
    machine := m
    log :=
      match started s.machine m with
      | some e => s.log ++ [⟨e, m.key e, m.eq.curTick, s.target e, s.stamp e⟩]
      | none => s.log }

def Traced.step (s : Traced) (a : Action) : Except Fail Traced := do
  let m ← s.machine.step a
  return (s.noteTarget a).noteServed m

def Traced.init (id : ℕ) (heap : Heap) (t : Tick) : Traced where
  machine := Machine.init id heap t
  target := fun _ => 0
  stamp := fun _ => 0
  log := []

/-- `serviceEvents` is not called with a time in the past. -/
def Forward (s : Traced) (a : Action) : Prop :=
  ∀ w, a = .serviceEvents w → s.machine.eq.curTick ≤ w

/-! ## The invariant -/

structure Timely (s : Traced) : Prop where
  refines : ∃ g bins, Refines s.machine g bins
  notPast : ∀ p, s.machine.holds p → s.machine.eq.curTick ≤ (ofLex (s.machine.key p)).1
  onTarget : ∀ p, s.machine.holds p → (ofLex (s.machine.key p)).1 = s.target p
  bound : ∀ w, s.machine.limit = some w → s.machine.eq.curTick ≤ w
  served : ∀ x ∈ s.log, x.tick = x.target
  /-- an event asked for before the `i`-th one was processed is not in front of it -/
  behind : ∀ (i : ℕ) (x : Served), s.log[i]? = some x → ∀ p, s.machine.holds p →
    s.stamp p ≤ i → x.key ≤ s.machine.key p
  ordered : ∀ (i j : ℕ) (x y : Served), i < j → s.log[i]? = some x → s.log[j]? = some y →
    y.stamp ≤ i → x.key ≤ y.key

/-- An element of a list with one more at the end. -/
theorem getElem?_concat {α : Type*} {l : List α} {a x : α} {i : ℕ}
    (h : (l ++ [a])[i]? = some x) : l[i]? = some x ∨ i = l.length ∧ x = a := by
  rcases Nat.lt_trichotomy i l.length with hi | hi | hi
  · rw [List.getElem?_append_left hi] at h
    exact .inl h
  · rw [hi, List.getElem?_concat_length] at h
    exact .inr ⟨hi, (Option.some.inj h).symm⟩
  · rw [List.getElem?_eq_none (by simp; omega)] at h
    cases h

section Traced

variable {s : Traced}

theorem noteTarget_of_none {a : Action} (ha : a.enqueues = none) : s.noteTarget a = s := by
  unfold Traced.noteTarget
  rw [ha]

theorem noteServed_of_same {m : Machine}
    (h : m.current = s.machine.current ∨ m.current = none) :
    s.noteServed m = { s with machine := m } := by
  unfold Traced.noteServed started
  rcases h with h | h
  · rw [h]
    split
    · rename_i e he
      split at he
      · rename_i hnone
        rw [hnone] at he
        cases he
      · cases he
    · rfl
  · rw [h, ite_self]

/-- **One step keeps the invariant**, and time does not go back. -/
theorem Timely.step (ht : Timely s) {a : Action} {s' : Traced} (ha : Forward s a)
    (hstep : s.step a = .ok s') :
    Timely s' ∧ s.machine.eq.curTick ≤ s'.machine.eq.curTick := by
  obtain ⟨m, hm, hs'⟩ := bind_eq_ok.mp hstep
  obtain rfl := Except.ok.inj hs'
  obtain ⟨g, bins, hR⟩ := ht.refines
  obtain ⟨bins', hR'⟩ := hR.step hm
  cases hR.change hm with
  | enqueue e w haq hw htime hlimit hcurrent hwhen hkept hlost =>
    have hnote : s.noteTarget a = { s with
        target := Function.update s.target e w
        stamp := Function.update s.stamp e s.log.length } := by
      unfold Traced.noteTarget
      rw [haq]
    rw [noteServed_of_same (.inl (by rw [hnote]; exact hcurrent)), hnote]
    refine ⟨⟨⟨_, bins', hR'⟩, ?_, ?_, ?_, ht.served, ?_, ht.ordered⟩, htime.ge⟩
    · intro p hp
      show m.eq.curTick ≤ (ofLex (m.key p)).1
      rw [htime]
      by_cases hpe : p = e
      · subst hpe
        rw [hwhen]
        exact hw
      · obtain ⟨hheld, hkey⟩ := hkept p hpe hp
        rw [hkey]
        exact ht.notPast p hheld
    · intro p hp
      show (ofLex (m.key p)).1 = Function.update s.target e w p
      by_cases hpe : p = e
      · subst hpe
        rw [Function.update_self]
        exact hwhen
      · obtain ⟨hheld, hkey⟩ := hkept p hpe hp
        rw [Function.update_of_ne hpe, hkey]
        exact ht.onTarget p hheld
    · intro w' hw'
      show m.eq.curTick ≤ w'
      rw [htime]
      exact ht.bound w' (hlimit.symm.trans hw')
    · intro i x hx p hp hstamp
      have hi : i < s.log.length := (List.getElem?_eq_some_iff.mp hx).1
      change Function.update s.stamp e s.log.length p ≤ i at hstamp
      by_cases hpe : p = e
      · subst hpe
        rw [Function.update_self] at hstamp
        omega
      · obtain ⟨hheld, hkey⟩ := hkept p hpe hp
        rw [Function.update_of_ne hpe] at hstamp
        show x.key ≤ m.key p
        rw [hkey]
        exact ht.behind i x hx p hheld hstamp
  | quiet haq htime hlimit hcurrent hkept hlost =>
    rw [noteTarget_of_none haq, noteServed_of_same hcurrent]
    refine ⟨⟨⟨_, bins', hR'⟩, ?_, ?_, ?_, ht.served, ?_, ht.ordered⟩, htime.ge⟩
    · intro p hp
      obtain ⟨hheld, hkey⟩ := hkept p hp
      show m.eq.curTick ≤ (ofLex (m.key p)).1
      rw [htime, hkey]
      exact ht.notPast p hheld
    · intro p hp
      obtain ⟨hheld, hkey⟩ := hkept p hp
      show (ofLex (m.key p)).1 = s.target p
      rw [hkey]
      exact ht.onTarget p hheld
    · intro w' hw'
      show m.eq.curTick ≤ w'
      rw [htime]
      exact ht.bound w' (hlimit.symm.trans hw')
    · intro i x hx p hp hstamp
      obtain ⟨hheld, hkey⟩ := hkept p hp
      show x.key ≤ m.key p
      rw [hkey]
      exact ht.behind i x hx p hheld hstamp
  | serve e haq hheld hgone hfirst hbound htime hlimit hidle hcurrent hkeye hkept hlost =>
    have hlog : s.noteServed m = { s with
        machine := m
        log := s.log ++ [⟨e, m.key e, m.eq.curTick, s.target e, s.stamp e⟩] } := by
      unfold Traced.noteServed started
      rw [if_pos hidle, hcurrent]
    rw [noteTarget_of_none haq, hlog]
    have hnow : s.machine.eq.curTick ≤ m.eq.curTick := by
      rw [htime]
      exact ht.notPast e hheld
    refine ⟨⟨⟨_, bins', hR'⟩, ?_, ?_, ?_, ?_, ?_, ?_⟩, hnow⟩
    · intro p hp
      obtain ⟨hheld', hkey⟩ := hkept p hp
      show m.eq.curTick ≤ (ofLex (m.key p)).1
      rw [htime, hkey]
      exact Prod.Lex.monotone_fst_ofLex (hfirst p hheld')
    · intro p hp
      obtain ⟨hheld', hkey⟩ := hkept p hp
      show (ofLex (m.key p)).1 = s.target p
      rw [hkey]
      exact ht.onTarget p hheld'
    · intro w' hw'
      show m.eq.curTick ≤ w'
      rw [htime]
      exact hbound w' (hlimit.symm.trans hw')
    · intro x hx
      rcases List.mem_append.mp hx with hx | hx
      · exact ht.served x hx
      · obtain rfl := List.mem_singleton.mp hx
        exact htime.trans (ht.onTarget e hheld)
    · intro i x hx p hp hstamp
      obtain ⟨hheld', hkey⟩ := hkept p hp
      show x.key ≤ m.key p
      rw [hkey]
      rcases getElem?_concat hx with hx | ⟨-, rfl⟩
      · exact ht.behind i x hx p hheld' hstamp
      · show m.key e ≤ s.machine.key p
        rw [hkeye]
        exact hfirst p hheld'
    · intro i j x y hij hx hy hstamp
      rcases getElem?_concat hy with hy | ⟨hj, rfl⟩
      · have hj := (List.getElem?_eq_some_iff.mp hy).1
        rcases getElem?_concat hx with hx | ⟨hi, -⟩
        · exact ht.ordered i j x y hij hx hy hstamp
        · omega
      · -- the event served now was behind every earlier one it was asked for before
        rcases getElem?_concat hx with hx | ⟨hi, -⟩
        · show x.key ≤ m.key e
          rw [hkeye]
          exact ht.behind i x hx e hheld hstamp
        · omega
  | enter w haw hmw =>
    subst haw
    have hcurrent : m.current = s.machine.current := by rw [hmw]
    rw [noteTarget_of_none rfl, noteServed_of_same (.inl hcurrent)]
    subst hmw
    refine ⟨⟨⟨_, bins', hR'⟩, ht.notPast, ht.onTarget, ?_, ht.served, ht.behind, ht.ordered⟩,
      le_refl _⟩
    intro w' hw'
    obtain rfl := Option.some.inj hw'
    exact ha w rfl
  | leave w haq hlimit hmw hlater =>
    have hcurrent : m.current = s.machine.current := by rw [hmw]
    rw [noteTarget_of_none haq, noteServed_of_same (.inl hcurrent)]
    subst hmw
    refine ⟨⟨⟨_, bins', hR'⟩, ?_, ht.onTarget, ?_, ht.served, ht.behind, ht.ordered⟩,
      ht.bound w hlimit⟩
    · intro p hp
      exact (hlater p hp).le
    · intro w' hw'
      cases hw'

/-- An event leaves the queue only by `deschedule`, squashed, or as the next entry of
the log. -/
theorem Timely.leaves (ht : Timely s) {a : Action} {s' : Traced} (hstep : s.step a = .ok s')
    {p : Ptr} (hp : s.machine.holds p) (hgone : ¬s'.machine.holds p) :
    a = .deschedule p ∨ (s.machine.eq.heap p).squashed = true ∨
      ∃ x, s'.log = s.log ++ [x] ∧ x.event = p := by
  obtain ⟨m, hm, hs'⟩ := bind_eq_ok.mp hstep
  obtain rfl := Except.ok.inj hs'
  obtain ⟨g, bins, hR⟩ := ht.refines
  have hgone' : ¬m.holds p := hgone
  cases hR.change hm with
  | enqueue e w haq hw htime hlimit hcurrent hwhen hkept hlost =>
    exact absurd (hlost p hp) hgone'
  | quiet haq htime hlimit hcurrent hkept hlost =>
    rcases hlost p hp hgone' with ha | hsq
    · exact .inl ha
    · exact .inr (.inl hsq)
  | serve e haq hheld hgone hfirst hbound htime hlimit hidle hcurrent hkeye hkept hlost =>
    right
    right
    have hpe : p = e := by
      by_contra hne
      exact hgone' (hlost p hp hne)
    rw [noteTarget_of_none haq]
    unfold Traced.noteServed started
    rw [if_pos hidle, hcurrent]
    exact ⟨_, rfl, hpe.symm⟩
  | enter w haw hmw =>
    subst hmw
    exact absurd hp hgone'
  | leave w haq hlimit hmw hlater =>
    subst hmw
    exact absurd hp hgone'

end Traced

theorem timely_init {id : ℕ} {heap : Heap} {t : Tick}
    (hheap : ∀ p, (heap p).scheduled = true → (heap p).queue ≠ some id) :
    Timely (Traced.init id heap t) := by
  have hnone : ∀ p, ¬(Machine.init id heap t).holds p := by
    intro p hp
    obtain ⟨hs, hq⟩ := owns_iff.mp hp
    exact hheap p hs hq
  refine ⟨⟨_, [], refines_init hheap⟩, ?_, ?_, ?_, ?_, ?_, ?_⟩
  · exact fun p hp => absurd hp (hnone p)
  · exact fun p hp => absurd hp (hnone p)
  · intro w hw
    cases hw
  · intro x hx
    cases hx
  · intro i x hx
    cases hx
  · intro i j x y _ hx
    cases hx

/-- **Simulated time.**  In every run in which `serviceEvents` is not called with a time
in the past: time does not go back in any continuation, every scheduled event is at or
after the current tick, every processed event ran at the tick it was last scheduled for,
an event leaves the queue only descheduled, squashed or processed, and of two processed
events the later one has no smaller key unless it was scheduled during or after the
handler of the earlier one. -/
theorem simulated_time (id : ℕ) (heap : Heap) (t : Tick) (as : List Action) {s : Traced}
    (hheap : ∀ p, (heap p).scheduled = true → (heap p).queue ≠ some id)
    (hforward : Admitted Forward Traced.step (Traced.init id heap t) as)
    (hrun : run Traced.step (Traced.init id heap t) as = .ok s) :
    (∀ as' s', Admitted Forward Traced.step s as' → run Traced.step s as' = .ok s' →
      s.machine.eq.curTick ≤ s'.machine.eq.curTick) ∧
    (∀ p, s.machine.eq.owns (s.machine.eq.heap p) = true →
      s.machine.eq.curTick ≤ (s.machine.eq.heap p).when_) ∧
    (∀ x ∈ s.log, x.tick = x.target) ∧
    (∀ a s', s.step a = .ok s' → ∀ p, s.machine.holds p → ¬s'.machine.holds p →
      a = .deschedule p ∨ (s.machine.eq.heap p).squashed = true ∨
        ∃ x, s'.log = s.log ++ [x] ∧ x.event = p) ∧
    ∀ (i j : ℕ) (x y : Served), i < j → s.log[i]? = some x → s.log[j]? = some y →
      y.stamp ≤ i → x.key ≤ y.key := by
  have htimely := run_invariant (fun s a s' hs ha h => (Timely.step hs ha h).1)
    (timely_init hheap) hforward hrun
  refine ⟨?_, htimely.notPast, htimely.served, fun a s' h p => htimely.leaves h, htimely.ordered⟩
  intro as' s' hforward' hrun'
  have hlater := run_invariant
    (P := fun u => Timely u ∧ s.machine.eq.curTick ≤ u.machine.eq.curTick)
    (fun u a u' hu ha h => ⟨(hu.1.step ha h).1, hu.2.trans (hu.1.step ha h).2⟩)
    ⟨htimely, le_refl _⟩ hforward' hrun'
  exact hlater.2

/-- A handler schedules an event in front of one that is already waiting. -/
theorem simulated_time_overtaking :
    ∃ s, run Traced.step (Traced.init 0 (fun _ => {}) 0)
        [.schedule 0 5, .schedule 1 9, .serviceEvents 10, .iterate, .schedule 2 7, .finish,
          .iterate, .finish, .iterate, .finish, .iterate] = .ok s ∧
      s.log.map Served.event = [0, 2, 1] ∧ s.machine.eq.curTick = 10 ∧
      ∀ x ∈ s.log, x.tick = x.target := by
  refine ⟨_, rfl, rfl, rfl, ?_⟩
  have htime := simulated_time 0 (fun _ => {}) 0
    [.schedule 0 5, .schedule 1 9, .serviceEvents 10, .iterate, .schedule 2 7, .finish,
      .iterate, .finish, .iterate, .finish, .iterate]
    (by intro p h; cases h) ?_ rfl
  · exact htime.2.2.1
  · refine ⟨nofun, fun s₁ h₁ => ⟨nofun, fun s₂ h₂ => ⟨?_, fun s₃ _ => ?_⟩⟩⟩
    · intro w h
      cases h
      obtain rfl : _ = s₁ := Except.ok.inj h₁
      obtain rfl : _ = s₂ := Except.ok.inj h₂
      decide
    · apply admitted_of_forall
      intro a ha s w h
      subst h
      simp at ha

/-- **`serviceEvents` turns time back** when it is called with an earlier tick. -/
theorem serviceEvents_turns_back :
    ∃ m m', run Machine.step (Machine.init 0 (fun _ => {}) 0) [.serviceEvents 5, .iterate] = .ok m ∧
      run Machine.step m [.serviceEvents 3, .iterate] = .ok m' ∧
      ¬m.eq.curTick ≤ m'.eq.curTick :=
  ⟨_, _, rfl, rfl, by decide⟩

end Gem5.Sim
