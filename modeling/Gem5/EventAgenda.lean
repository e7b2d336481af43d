/-
# The event queue refines an agenda

An agenda is what the event queue is for: the list of the scheduled events, sorted
by time and priority, the most recently scheduled one first among equal keys.  This
module relates the pointer structure to it over whole runs: every operation of
`EventQueue` does on the bins what the agenda does on its list, an operation whose
assertions hold never fails, and `nextBin` pointers below the top of a bin have no
influence on anything.
-/
import Gem5.EventBins

open Linked Runs

namespace Gem5.Sim

/-! ## Changing an event -/

variable {h h' : Heap} {p e : Ptr} {bins : List Bin} {q q' : EventQueue} {es : List Entry}
  {rounds : ℕ} {w : Tick} {m : Machine}

/-- The data of an event is changed, and then any links. -/
theorem LinksOnly.update {x : Event} (hl : LinksOnly (h.set p x) h') (f : Event → Event)
    (hf : ∀ e, (f e).data = (f e.data).data) :
    LinksOnly (h.set p (f x)) (h'.set p (f (h' p))) := by
  intro p'
  by_cases hp : p' = p
  · subst hp
    have hdata := hl p'
    rw [Heap.set_self] at hdata
    rw [Heap.set_self, Heap.set_self, hf, hdata, ← hf]
  · have hdata := hl p'
    rw [Heap.set_of_ne h _ hp] at hdata
    rw [Heap.set_of_ne h' _ hp, Heap.set_of_ne h _ hp]
    exact hdata

/-- The data of the one event that was changed, and of the others. -/
theorem LinksOnly.at_self {x : Event} (hl : LinksOnly (h.set p x) h') {β : Type*} (f : Event → β)
    (hf : ∀ e : Event, f e = f e.data) : f (h' p) = f x := by
  rw [hl.field f hf p, Heap.set_self]

theorem LinksOnly.at_of_ne {p' : Ptr} {x : Event} (hl : LinksOnly (h.set p x) h') (hne : p' ≠ p)
    {β : Type*} (f : Event → β) (hf : ∀ e : Event, f e = f e.data) :
    f (h' p') = f (h p') := by
  rw [hl.field f hf p', Heap.set_of_ne h x hne]

/-- Entries look only at the keys of the events in the bins. -/
theorem entries_congr (hkey : ∀ p ∈ order bins, (h' p).key = (h p).key) :
    entries h' bins = entries h bins := by
  unfold entries
  apply List.map_congr_left
  intro p hp
  unfold entry
  rw [hkey p hp]

theorem entries_set {e : Event} (hsame : p ∈ order bins → e.key = (h p).key) :
    entries (h.set p e) bins = entries h bins := by
  apply entries_congr
  intro p' hp'
  by_cases hp : p' = p
  · subst hp
    rw [Heap.set_self]
    exact hsame hp'
  · rw [Heap.set_of_ne h e hp]

@[simp] theorem events_entries (h : Heap) (bins : List Bin) :
    (entries h bins).map Entry.event = order bins := by
  unfold entries
  rw [List.map_map]
  exact List.map_id _

/-- Removing an event from the order removes its entry. -/
theorem entries_filter {bins' : List Bin} (hkey : ∀ p ≠ e, (h' p).key = (h p).key)
    (horder : order bins' = (order bins).filter (· ≠ e)) :
    entries h' bins' = (entries h bins).filter (·.event ≠ e) := by
  have hcongr : entries h' bins' = entries h bins' := by
    apply entries_congr
    intro p hp
    rw [horder] at hp
    exact hkey p (of_decide_eq_true (List.mem_filter.mp hp).2)
  rw [hcongr]
  unfold entries
  rw [horder, List.filter_map]
  rfl

/-! ## The operations on the bins -/

/-- What an operation returns: new links and a new head, with the data of one event
changed to `x`. -/
def Outcome (q : EventQueue) (e : Ptr) (x : Event) (r : Except Fail EventQueue)
    (es : List Entry) : Prop :=
  ∃ h' head' bins', r = .ok { q with heap := h', head := head' } ∧ Represents h' head' bins' ∧
    LinksOnly (q.heap.set e x) h' ∧ entries h' bins' = es

/-- The rest of an operation changes the data of the event once more. -/
theorem Outcome.update {x : Event} {r : Except Fail EventQueue} (ho : Outcome q e x r es)
    (f : Event → Event)
    (hlinks : ∀ y, (f y).nextBin = y.nextBin ∧ (f y).nextInBin = y.nextInBin ∧ (f y).key = y.key)
    (hdata : ∀ y, (f y).data = (f y.data).data) :
    Outcome q e (f x) (r >>= fun q' => .ok (q'.setEvent e (f (q'.heap e)))) es := by
  obtain ⟨h', head', bins', rfl, hr, hl, hes⟩ := ho
  refine ⟨h'.set e (f (h' e)), head', bins', rfl, ?_, hl.update f hdata, ?_⟩
  · apply hr.set
    intro _
    exact hlinks (h' e)
  · rw [entries_set fun _ => (hlinks (h' e)).2.2]
    exact hes

theorem Event.release_links (y : Event) :
    y.release.nextBin = y.nextBin ∧ y.release.nextInBin = y.nextInBin ∧ y.release.key = y.key := by
  unfold Event.release
  split
  · exact ⟨rfl, rfl, rfl⟩
  · exact ⟨rfl, rfl, rfl⟩

theorem Event.release_data (y : Event) : y.release.data = y.data.release.data := by
  unfold Event.release
  split
  · rename_i h
    rw [if_pos (show (y.data.managed && !y.data.scheduled) = true from h)]
    rfl
  · rename_i h
    rw [if_neg (show ¬(y.data.managed && !y.data.scheduled) = true from h)]
    rfl

theorem Event.release_priority (y : Event) : y.release.priority = y.priority :=
  congrArg (fun k => (ofLex k).2) y.release_links.2.2

/-- `setWhen` and `insert`, as `schedule` and `reschedule` call them. -/
theorem outcome_insert {w : Tick} (hr : Represents q.heap q.head bins) (he : e ∉ order bins)
    (hrounds : (order bins).length ≤ rounds) :
    Outcome q e { q.heap e with when_ := w, queue := some q.id }
      ((q.setWhen e w).insert rounds e)
      ((entries q.heap bins).orderedInsert Entry.Before ⟨e, toLex (w, (q.heap e).priority)⟩) := by
  have hset : Represents (q.setWhen e w).heap (q.setWhen e w).head bins :=
    hr.set e _ fun hmem => absurd hmem he
  obtain ⟨h', head', bins', hins, hr', hl, hes⟩ := insert_represents hset he
    ((length_le_order bins).trans hrounds)
  refine ⟨h', head', bins', hins, hr', hl, ?_⟩
  have hentry : entry (q.setWhen e w).heap e = ⟨e, toLex (w, (q.heap e).priority)⟩ := by
    show (⟨e, (q.heap.set e _ e).key⟩ : Entry) = _
    rw [Heap.set_self]
    rfl
  have hold : entries (q.setWhen e w).heap bins = entries q.heap bins :=
    entries_set fun hmem => absurd hmem he
  rw [hes, hentry, hold]

/-- **`schedule`** inserts the event at its time. -/
theorem outcome_schedule (hr : Represents q.heap q.head bins) (he : e ∉ order bins)
    (hrounds : (order bins).length ≤ rounds) (hw : q.curTick ≤ w)
    (hsched : (q.heap e).scheduled = false) (hinit : (q.heap e).initialized = true) :
    Outcome q e { q.heap e with when_ := w, queue := some q.id, scheduled := true }
      (q.schedule rounds e w)
      ((entries q.heap bins).orderedInsert Entry.Before ⟨e, toLex (w, (q.heap e).priority)⟩) := by
  have hbody := (outcome_insert (w := w) hr he hrounds).update
    (fun y => { y with scheduled := true }) (fun y => ⟨rfl, rfl, rfl⟩) (fun y => rfl)
  unfold EventQueue.schedule
  rw [require_ok (decide_eq_true hw), require_ok (by rw [hsched]; rfl), require_ok hinit]
  exact hbody

/-- The two parts of `owns`. -/
theorem owns_iff {y : Event} :
    q.owns y = true ↔ y.scheduled = true ∧ y.queue = some q.id := by
  unfold EventQueue.owns
  rw [Bool.and_eq_true, decide_eq_true_eq]

/-- `remove` of an event that is scheduled here. -/
theorem outcome_remove (hr : Represents q.heap q.head bins) (he : e ∈ order bins)
    (hrounds : (order bins).length ≤ rounds) (howns : q.owns (q.heap e) = true) :
    Outcome q e (q.heap e) (q.remove rounds e) ((entries q.heap bins).filter (·.event ≠ e)) := by
  obtain ⟨h', head', bins', hrem, hr', hl, horder⟩ :=
    remove_represents hr he (owns_iff.mp howns).2 hrounds
  refine ⟨h', head', bins', hrem, hr', ?_, entries_filter (fun p _ => hl.key p) horder⟩
  unfold Heap.set
  rw [Function.update_eq_self]
  exact hl

/-- **`deschedule`** removes the event; a managed one is released. -/
theorem outcome_deschedule (hr : Represents q.heap q.head bins) (he : e ∈ order bins)
    (hrounds : (order bins).length ≤ rounds) (howns : q.owns (q.heap e) = true)
    (hinit : (q.heap e).initialized = true) :
    Outcome q e ({ q.heap e with squashed := false, scheduled := false }).release
      (q.deschedule rounds e) ((entries q.heap bins).filter (·.event ≠ e)) := by
  have hbody := ((outcome_remove hr he hrounds howns).update
    (fun y => { y with squashed := false, scheduled := false }) (fun y => ⟨rfl, rfl, rfl⟩)
    (fun y => rfl)).update Event.release Event.release_links Event.release_data
  unfold EventQueue.deschedule
  rw [require_ok (owns_iff.mp howns).1, require_ok hinit]
  rw [bind_assoc] at hbody
  exact hbody

/-- **`reschedule`** moves the event to its new time, or inserts it when it was not
scheduled. -/
theorem outcome_reschedule {always : Bool} (hr : Represents q.heap q.head bins)
    (he : e ∈ order bins ↔ (q.heap e).scheduled = true) (hrounds : (order bins).length ≤ rounds)
    (hw : q.curTick ≤ w) (hsched : (always || (q.heap e).scheduled) = true)
    (howns : (q.heap e).scheduled = true → (q.heap e).queue = some q.id)
    (hinit : (q.heap e).initialized = true) :
    Outcome q e { q.heap e with when_ := w, queue := some q.id, squashed := false, scheduled := true }
      (q.reschedule rounds e w always)
      (((entries q.heap bins).filter (·.event ≠ e)).orderedInsert Entry.Before
        ⟨e, toLex (w, (q.heap e).priority)⟩) := by
  -- the event is taken out first when it is scheduled
  have htake : Outcome q e (q.heap e)
      (if (q.heap e).scheduled = true then q.remove rounds e else .ok q)
      ((entries q.heap bins).filter (·.event ≠ e)) := by
    by_cases hs : (q.heap e).scheduled = true
    · rw [if_pos hs]
      exact outcome_remove hr (he.mpr hs) hrounds (owns_iff.mpr ⟨hs, howns hs⟩)
    · rw [if_neg hs]
      refine ⟨q.heap, q.head, bins, rfl, hr, ?_, ?_⟩
      · unfold Heap.set
        rw [Function.update_eq_self]
        exact fun p => rfl
      · symm
        apply List.filter_eq_self.mpr
        intro x hx
        have hmem : x.event ∈ order bins := by
          rw [← events_entries q.heap bins]
          exact List.mem_map_of_mem hx
        have hne : x.event ≠ e := fun heq => hs (he.mp (heq ▸ hmem))
        exact decide_eq_true hne
  obtain ⟨h₁, head₁, bins₁, hq₁, hr₁, hl₁, hes₁⟩ := htake
  have horder : order bins₁ = (order bins).filter (· ≠ e) := by
    rw [← events_entries h₁ bins₁, hes₁, ← events_entries q.heap bins, List.filter_map]
    rfl
  have hnot : e ∉ order bins₁ := by
    rw [horder]
    intro hcon
    exact of_decide_eq_true (List.mem_filter.mp hcon).2 rfl
  have hlen : (order bins₁).length ≤ rounds := by
    rw [horder]
    exact (List.length_filter_le _ _).trans hrounds
  obtain ⟨h₂, head₂, bins₂, hq₂, hr₂, hl₂, hes₂⟩ :=
    (outcome_insert (q := { q with heap := h₁, head := head₁ }) (w := w) hr₁ hnot hlen).update
      (fun y => { y with squashed := false, scheduled := true }) (fun y => ⟨rfl, rfl, rfl⟩)
      (fun y => rfl)
  have hprio : (h₁ e).priority = (q.heap e).priority := hl₁.at_self Event.priority fun y => rfl
  refine ⟨h₂, head₂, bins₂, ?_, hr₂, ?_, ?_⟩
  · unfold EventQueue.reschedule
    rw [require_ok (decide_eq_true hw), require_ok hsched, require_ok hinit]
    show ((if (q.heap e).scheduled = true then q.remove rounds e else .ok q) >>= _) = _
    rw [hq₁]
    exact hq₂
  · have hstep := hl₁.update (fun y =>
      { y with when_ := w, queue := some q.id, squashed := false, scheduled := true })
      (fun y => rfl)
    exact hstep.trans hl₂
  · rw [hes₂, hprio, hes₁]

/-- An event is changed in place. -/
theorem outcome_set (hr : Represents q.heap q.head bins) (e : Ptr) (x : Event)
    (hsame : e ∈ order bins → x.nextBin = (q.heap e).nextBin ∧
      x.nextInBin = (q.heap e).nextInBin ∧ x.key = (q.heap e).key) :
    Outcome q e x (.ok (q.setEvent e x)) (entries q.heap bins) :=
  ⟨_, _, bins, rfl, hr.set e x hsame, fun _ => rfl, entries_set fun hmem => (hsame hmem).2.2⟩

/-- **The head leaves** and is neither scheduled any more nor in the bins. -/
theorem outcome_popHead {x : Entry} (hr : Represents q.heap q.head bins)
    (hes : entries q.heap bins = x :: es) :
    Outcome q x.event { q.heap x.event with scheduled := false } (.ok (q.popHead x.event)) es := by
  have horder : order bins = x.event :: es.map Entry.event := by
    rw [← events_entries q.heap bins, hes, List.map_cons]
  obtain ⟨h', head', bins', hq, hr', hl, horder'⟩ := popHead_represents hr horder
  refine ⟨h', head', bins', by rw [hq], hr', hl, ?_⟩
  have hkey : ∀ p, (h' p).key = (q.heap p).key := by
    intro p
    by_cases hp : p = x.event
    · subst hp
      exact hl.at_self Event.key fun y => rfl
    · exact hl.at_of_ne hp Event.key fun y => rfl
  have hentry : ∀ y ∈ es, entry h' y.event = y := by
    intro y hy
    have hmem : y ∈ entries q.heap bins := hes ▸ List.mem_cons_of_mem x hy
    obtain ⟨p, -, rfl⟩ := List.mem_map.mp hmem
    unfold entry
    rw [hkey]
  unfold entries
  rw [horder', List.map_map]
  exact (List.map_congr_left hentry).trans (List.map_id es)

/-- `serviceOne` up to the handler: a squashed head only leaves, any other one becomes
the current event and sets the time. -/
theorem outcome_startService {x : Entry} (hr : Represents m.eq.heap m.eq.head bins)
    (hes : entries m.eq.heap bins = x :: es) :
    ((m.eq.heap x.event).squashed = true ∧ ∃ q,
      Outcome m.eq x.event
        ({ m.eq.heap x.event with scheduled := false, squashed := false }).release (.ok q) es ∧
      m.startService x.event = { m with eq := q }) ∨
    ((m.eq.heap x.event).squashed = false ∧ ∃ q,
      Outcome m.eq x.event { m.eq.heap x.event with scheduled := false } (.ok q) es ∧
      m.startService x.event =
        { m with
          eq := { q with curTick := (m.eq.heap x.event).when_ }
          current := some x.event }) := by
  have hpop := outcome_popHead hr hes
  have hfield : ∀ {β : Type} (f : Event → β), (∀ y : Event, f y = f y.data) →
      f ((m.eq.popHead x.event).heap x.event) =
        f { m.eq.heap x.event with scheduled := false } := by
    intro β f hf
    obtain ⟨h', head', bins', hq, -, hl, -⟩ := hpop
    rw [Except.ok.inj hq]
    exact hl.at_self f hf
  set q := m.eq.popHead x.event with hq
  have hsq : (q.heap x.event).squashed = (m.eq.heap x.event).squashed :=
    hfield Event.squashed fun y => rfl
  have hwhen : (q.heap x.event).when_ = (m.eq.heap x.event).when_ :=
    hfield Event.when_ fun y => rfl
  by_cases hs : (m.eq.heap x.event).squashed = true
  · left
    have hclear := hpop.update (fun y => { y with squashed := false }) (fun y => ⟨rfl, rfl, rfl⟩)
      (fun y => rfl)
    have hrelease := hclear.update Event.release Event.release_links Event.release_data
    refine ⟨hs, (q.setEvent x.event { q.heap x.event with squashed := false }).release x.event,
      hrelease, ?_⟩
    unfold Machine.startService
    dsimp only
    rw [← hq, if_pos (hsq.trans hs)]
  · right
    refine ⟨Bool.eq_false_of_not_eq_true hs, q, hpop, ?_⟩
    unfold Machine.startService
    dsimp only
    rw [← hq, if_neg (hsq ▸ hs), hwhen]

/-! ## The agenda -/

/-- The scheduled events in the order in which they will be served, with what decides
the next steps: the priorities and the argument of a running `serviceEvents`. -/
structure Agenda where
  priority : Ptr → ℤ
  limit : Option Tick
  entries : List Entry

/-- Add an event at a time. -/
def Agenda.add (g : Agenda) (event : Ptr) (when_ : Tick) : Agenda :=
  { g with
    entries := g.entries.orderedInsert Entry.Before ⟨event, toLex (when_, g.priority event)⟩ }

/-- Drop an event. -/
def Agenda.drop (g : Agenda) (event : Ptr) : Agenda :=
  { g with entries := g.entries.filter (·.event ≠ event) }

/-- What each operation means for the agenda. -/
def Agenda.step (g : Agenda) : Action → Agenda
  | .schedule event when_ => g.add event when_
  | .deschedule event => g.drop event
  | .reschedule event when_ _ => (g.drop event).add event when_
  | .squash _ => g
  | .serviceOne => { g with entries := g.entries.tail }
  | .serviceEvents when_ => { g with limit := some when_ }
  | .iterate =>
      match g.limit, g.entries with
      | some when_, x :: es =>
          if (ofLex x.key).1 > when_ then { g with limit := none } else { g with entries := es }
      | _, _ => { g with limit := none }
  | .finish => g
  | .foreign event new => { g with priority := Function.update g.priority event new.priority }

def Agenda.init (heap : Heap) : Agenda where
  priority := fun p => (heap p).priority
  limit := none
  entries := []

/-! ## Refinement -/

/-- The machine represents the agenda by the given bins. -/
structure Refines (m : Machine) (g : Agenda) (bins : List Bin) : Prop where
  represents : Represents m.eq.heap m.eq.head bins
  entries_eq : entries m.eq.heap bins = g.entries
  mem_iff : ∀ p, p ∈ order bins ↔ m.eq.owns (m.eq.heap p) = true
  rounds : (order bins).length ≤ m.inserted
  priority : ∀ p, g.priority p = (m.eq.heap p).priority
  limit : g.limit = m.limit

theorem owns_data (q : EventQueue) (y : Event) : q.owns y = q.owns y.data := rfl

/-- Only events that are not scheduled are released. -/
theorem owns_release (q : EventQueue) (y : Event) : q.owns y.release = q.owns y := by
  unfold Event.release
  split
  · rename_i h
    rw [Bool.and_eq_true, Bool.not_eq_true'] at h
    unfold EventQueue.owns
    rw [h.2]
  · rfl

variable {g : Agenda}

/-- An operation on the queue, as a step of the machine. -/
theorem Refines.outcome (hR : Refines m g bins) {x : Event} (ho : Outcome m.eq e x (.ok q) es)
    (hself : e ∈ es.map Entry.event ↔ m.eq.owns x = true)
    (hother : ∀ p ≠ e, p ∈ es.map Entry.event ↔ p ∈ order bins) {t : Tick} {l l' : Option Tick}
    {c : Option Ptr} {n : ℕ} (hlen : es.length ≤ n) {prio : Ptr → ℤ}
    (hprio : prio = Function.update g.priority e x.priority) (hlim : l' = l) :
    ∃ bins', Refines { eq := { q with curTick := t }, limit := l, current := c, inserted := n }
      { priority := prio, limit := l', entries := es } bins' := by
  obtain ⟨h', head', bins', hq, hr, hl, hes⟩ := ho
  obtain rfl := Except.ok.inj hq
  have horder : order bins' = es.map Entry.event := by
    rw [← events_entries h' bins', hes]
  refine ⟨bins', hr, hes, ?_, ?_, ?_, hlim⟩
  · intro p
    rw [horder]
    by_cases hp : p = e
    · subst hp
      rw [hself, ← hl.at_self m.eq.owns (owns_data m.eq)]
      rfl
    · rw [hother p hp, hR.mem_iff p, ← hl.at_of_ne hp m.eq.owns (owns_data m.eq)]
      rfl
  · rw [horder, List.length_map]
    exact hlen
  · intro p
    show prio p = (h' p).priority
    rw [hprio]
    by_cases hp : p = e
    · subst hp
      rw [Function.update_self]
      exact (hl.at_self Event.priority fun y => rfl).symm
    · rw [Function.update_of_ne hp, hR.priority p]
      exact (hl.at_of_ne hp Event.priority fun y => rfl).symm

/-- The priorities after a change that keeps the priority. -/
theorem Refines.priority_update (hR : Refines m g bins) {x : Event}
    (hx : x.priority = (m.eq.heap e).priority) :
    g.priority = Function.update g.priority e x.priority := by
  rw [hx, ← hR.priority e, Function.update_eq_self]

theorem mem_events_insert {a : Entry} :
    p ∈ (es.orderedInsert Entry.Before a).map Entry.event ↔
      p = a.event ∨ p ∈ es.map Entry.event := by
  rw [((List.perm_orderedInsert Entry.Before a es).map Entry.event).mem_iff, List.map_cons,
    List.mem_cons]

theorem mem_events_filter :
    p ∈ (es.filter (·.event ≠ e)).map Entry.event ↔ p ≠ e ∧ p ∈ es.map Entry.event := by
  simp only [List.mem_map, List.mem_filter, decide_eq_true_eq]
  constructor
  · rintro ⟨x, ⟨hx, hne⟩, rfl⟩
    exact ⟨hne, x, hx, rfl⟩
  · rintro ⟨hne, x, hx, rfl⟩
    exact ⟨x, ⟨hx, hne⟩, rfl⟩

/-! ## What a successful operation has checked -/

theorem schedule_checks (h : q.schedule rounds e w = .ok q') :
    q.curTick ≤ w ∧ (q.heap e).scheduled = false ∧ (q.heap e).initialized = true := by
  unfold EventQueue.schedule at h
  obtain ⟨_, h1, h⟩ := bind_eq_ok.mp h
  obtain ⟨_, h2, h⟩ := bind_eq_ok.mp h
  obtain ⟨_, h3, _⟩ := bind_eq_ok.mp h
  rw [require_eq_ok] at h1 h2 h3
  exact ⟨of_decide_eq_true h1, by simpa using h2, h3⟩

theorem remove_checks (h : q.remove rounds e = .ok q') : (q.heap e).queue = some q.id := by
  unfold EventQueue.remove at h
  split at h
  · cases h
  · split at h
    · cases h
    · rename_i hqueue
      exact not_not.mp hqueue

theorem deschedule_checks (h : q.deschedule rounds e = .ok q') :
    q.owns (q.heap e) = true ∧ (q.heap e).initialized = true := by
  unfold EventQueue.deschedule at h
  obtain ⟨_, h1, h⟩ := bind_eq_ok.mp h
  obtain ⟨_, h2, h⟩ := bind_eq_ok.mp h
  obtain ⟨_, h3, _⟩ := bind_eq_ok.mp h
  rw [require_eq_ok] at h1 h2
  exact ⟨owns_iff.mpr ⟨h1, remove_checks h3⟩, h2⟩

theorem reschedule_checks {always : Bool} (h : q.reschedule rounds e w always = .ok q') :
    q.curTick ≤ w ∧ (always || (q.heap e).scheduled) = true ∧ (q.heap e).initialized = true ∧
      ((q.heap e).scheduled = true → (q.heap e).queue = some q.id) := by
  unfold EventQueue.reschedule at h
  obtain ⟨_, h1, h⟩ := bind_eq_ok.mp h
  obtain ⟨_, h2, h⟩ := bind_eq_ok.mp h
  obtain ⟨_, h3, h⟩ := bind_eq_ok.mp h
  obtain ⟨_, h4, _⟩ := bind_eq_ok.mp h
  rw [require_eq_ok] at h1 h2 h3
  refine ⟨of_decide_eq_true h1, h2, h3, ?_⟩
  intro hs
  rw [if_pos hs] at h4
  exact remove_checks h4

/-! ## Steps -/

section Steps

variable {m : Machine} {g : Agenda} {bins : List Bin}

/-- Scheduled nowhere or elsewhere: not in the bins. -/
theorem Refines.not_mem (hR : Refines m g bins) {p : Ptr} (hp : m.eq.owns (m.eq.heap p) = false) :
    p ∉ order bins := by
  intro hmem
  rw [hR.mem_iff p, hp] at hmem
  cases hmem

theorem Refines.not_mem_of_idle (hR : Refines m g bins) {p : Ptr}
    (hp : (m.eq.heap p).scheduled = false) : p ∉ order bins := by
  apply hR.not_mem
  unfold EventQueue.owns
  rw [hp]
  rfl

theorem Refines.events (hR : Refines m g bins) : g.entries.map Entry.event = order bins := by
  rw [← hR.entries_eq, events_entries]

theorem Refines.length (hR : Refines m g bins) : g.entries.length ≤ m.inserted := by
  have hlen := hR.rounds
  rw [← hR.events, List.length_map] at hlen
  exact hlen

/-- `schedule` does what the agenda does. -/
theorem Refines.schedule (hR : Refines m g bins) {e : Ptr} {w : Tick} (hw : m.eq.curTick ≤ w)
    (hsched : (m.eq.heap e).scheduled = false) (hinit : (m.eq.heap e).initialized = true) :
    ∃ m', m.step (.schedule e w) = .ok m' ∧ ∃ bins', Refines m' (g.add e w) bins' := by
  have he := hR.not_mem_of_idle hsched
  have ho := outcome_schedule hR.represents he hR.rounds hw hsched hinit
  rw [hR.entries_eq, ← hR.priority e] at ho
  obtain ⟨h', head', bins', hq, hrest⟩ := ho
  refine ⟨{ m with eq := { m.eq with heap := h', head := head' }, inserted := m.inserted + 1 }, ?_, ?_⟩
  · show (m.eq.schedule m.inserted e w >>= _) = _
    rw [hq]
    rfl
  · refine hR.outcome ⟨h', head', bins', rfl, hrest⟩ ?_ ?_ ?_ (hR.priority_update rfl) hR.limit
    · rw [mem_events_insert]
      exact iff_of_true (.inl rfl) (owns_iff.mpr ⟨rfl, rfl⟩)
    · intro p hp
      rw [mem_events_insert, hR.events]
      exact or_iff_right hp
    · rw [List.orderedInsert_length]
      exact Nat.succ_le_succ hR.length

/-- `deschedule` does what the agenda does. -/
theorem Refines.deschedule (hR : Refines m g bins) {e : Ptr}
    (howns : m.eq.owns (m.eq.heap e) = true) (hinit : (m.eq.heap e).initialized = true) :
    ∃ m', m.step (.deschedule e) = .ok m' ∧ ∃ bins', Refines m' (g.drop e) bins' := by
  have ho := outcome_deschedule hR.represents ((hR.mem_iff e).mpr howns) hR.rounds howns hinit
  rw [hR.entries_eq] at ho
  obtain ⟨h', head', bins', hq, hrest⟩ := ho
  refine ⟨{ m with eq := { m.eq with heap := h', head := head' } }, ?_, ?_⟩
  · show (m.eq.deschedule m.inserted e >>= _) = _
    rw [hq]
    rfl
  · refine hR.outcome ⟨h', head', bins', rfl, hrest⟩ ?_ ?_ ?_ (hR.priority_update ?_) hR.limit
    · rw [mem_events_filter, owns_release]
      exact iff_of_false (fun h => h.1 rfl) (fun h => absurd (owns_iff.mp h).1 (by simp))
    · intro p hp
      rw [mem_events_filter, hR.events]
      exact and_iff_right hp
    · exact (List.length_filter_le _ _).trans hR.length
    · exact (Event.release_priority _).trans rfl

/-- `reschedule` does what the agenda does. -/
theorem Refines.reschedule (hR : Refines m g bins) {e : Ptr} {w : Tick} {always : Bool}
    (hw : m.eq.curTick ≤ w) (hsched : (always || (m.eq.heap e).scheduled) = true)
    (hinit : (m.eq.heap e).initialized = true)
    (hqueue : (m.eq.heap e).scheduled = true → (m.eq.heap e).queue = some m.eq.id) :
    ∃ m', m.step (.reschedule e w always) = .ok m' ∧
      ∃ bins', Refines m' ((g.drop e).add e w) bins' := by
  have hmem : e ∈ order bins ↔ (m.eq.heap e).scheduled = true := by
    rw [hR.mem_iff, owns_iff]
    exact and_iff_left_of_imp hqueue
  have ho := outcome_reschedule hR.represents hmem hR.rounds hw hsched hqueue hinit
  rw [hR.entries_eq, ← hR.priority e] at ho
  obtain ⟨h', head', bins', hq, hrest⟩ := ho
  refine ⟨{ m with eq := { m.eq with heap := h', head := head' }, inserted := m.inserted + 1 },
    ?_, ?_⟩
  · show (m.eq.reschedule m.inserted e w always >>= _) = _
    rw [hq]
    rfl
  · refine hR.outcome ⟨h', head', bins', rfl, hrest⟩ ?_ ?_ ?_ (hR.priority_update rfl) hR.limit
    · rw [mem_events_insert]
      exact iff_of_true (.inl rfl) (owns_iff.mpr ⟨rfl, rfl⟩)
    · intro p hp
      rw [mem_events_insert, mem_events_filter, hR.events]
      constructor
      · rintro (heq | ⟨-, hmem⟩)
        · exact absurd heq hp
        · exact hmem
      · exact fun hmem => .inr ⟨hp, hmem⟩
    · rw [List.orderedInsert_length]
      exact Nat.succ_le_succ ((List.length_filter_le _ _).trans hR.length)

/-- A change of an event that leaves the agenda alone. -/
theorem Refines.setEvent (hR : Refines m g bins) {e : Ptr} {x : Event}
    (hlinks : x.nextBin = (m.eq.heap e).nextBin ∧ x.nextInBin = (m.eq.heap e).nextInBin ∧
      x.key = (m.eq.heap e).key)
    (howns : m.eq.owns x = m.eq.owns (m.eq.heap e)) {c : Option Ptr} :
    ∃ bins', Refines { m with eq := m.eq.setEvent e x, current := c } g bins' := by
  have ho := outcome_set hR.represents e x fun _ => hlinks
  rw [hR.entries_eq] at ho
  refine hR.outcome ho ?_ ?_ hR.length (hR.priority_update ?_) hR.limit
  · rw [hR.events, hR.mem_iff e, howns]
  · intro p _
    rw [hR.events]
  · exact (congrArg (fun k => (ofLex k).2) hlinks.2.2 : _)

/-- The head, if there is one, is the first entry. -/
theorem Refines.head (hR : Refines m g bins) :
    m.eq.head = g.entries.head?.map Entry.event := by
  rw [hR.represents.head_eq, ← hR.events, List.head?_map]

/-- Serving the head removes the first entry. -/
theorem Refines.startService (hR : Refines m g bins) {x : Entry} {es : List Entry}
    (hes : g.entries = x :: es) :
    ∃ bins', Refines (m.startService x.event) { g with entries := es } bins' := by
  have hents := hR.entries_eq.trans hes
  have hnodup : x.event ∉ es.map Entry.event := by
    have hnd := hR.represents.nodup
    rw [← hR.events, hes, List.map_cons] at hnd
    exact (List.nodup_cons.mp hnd).1
  have hother : ∀ p ≠ x.event, p ∈ es.map Entry.event ↔ p ∈ order bins := by
    intro p hp
    rw [← hR.events, hes, List.map_cons, List.mem_cons]
    exact (or_iff_right hp).symm
  have hlen : es.length ≤ m.inserted := by
    have hlen := hR.length
    rw [hes, List.length_cons] at hlen
    omega
  rcases outcome_startService hR.represents hents with ⟨_, q, ho, hm⟩ | ⟨_, q, ho, hm⟩
  · rw [hm]
    refine hR.outcome ho ?_ hother hlen (hR.priority_update ?_) hR.limit
    · rw [owns_release]
      exact iff_of_false hnodup fun h => absurd (owns_iff.mp h).1 (by simp)
    · exact (Event.release_priority _).trans rfl
  · rw [hm]
    refine hR.outcome ho ?_ hother hlen (hR.priority_update rfl) hR.limit
    exact iff_of_false hnodup fun h => absurd (owns_iff.mp h).1 (by simp)

/-- **One step keeps the refinement.** -/
theorem Refines.step (hR : Refines m g bins) {a : Action} {m' : Machine}
    (hstep : m.step a = .ok m') : ∃ bins', Refines m' (g.step a) bins' := by
  cases a with
  | schedule e w =>
    obtain ⟨q, hq, -⟩ := bind_eq_ok.mp hstep
    obtain ⟨hw, hsched, hinit⟩ := schedule_checks hq
    obtain ⟨m'', hm'', hR'⟩ := hR.schedule hw hsched hinit
    rw [Except.ok.inj (hstep.symm.trans hm'')]
    exact hR'
  | deschedule e =>
    obtain ⟨q, hq, -⟩ := bind_eq_ok.mp hstep
    obtain ⟨howns, hinit⟩ := deschedule_checks hq
    obtain ⟨m'', hm'', hR'⟩ := hR.deschedule howns hinit
    rw [Except.ok.inj (hstep.symm.trans hm'')]
    exact hR'
  | reschedule e w always =>
    obtain ⟨q, hq, -⟩ := bind_eq_ok.mp hstep
    obtain ⟨hw, hsched, hinit, hqueue⟩ := reschedule_checks hq
    obtain ⟨m'', hm'', hR'⟩ := hR.reschedule hw hsched hinit hqueue
    rw [Except.ok.inj (hstep.symm.trans hm'')]
    exact hR'
  | squash e =>
    obtain rfl := Except.ok.inj hstep
    apply hR.setEvent
    · exact ⟨rfl, rfl, rfl⟩
    · rfl
  | serviceOne =>
    rw [Machine.step, hR.head] at hstep
    split at hstep
    · cases hstep
    · cases hes : g.entries with
      | nil =>
        rw [hes] at hstep
        cases hstep
      | cons x es =>
        rw [hes] at hstep
        obtain rfl := Except.ok.inj hstep
        rw [Agenda.step, hes]
        exact hR.startService hes
  | serviceEvents w =>
    rw [Machine.step] at hstep
    split at hstep
    · cases hstep
    · obtain rfl := Except.ok.inj hstep
      exact ⟨bins, hR.represents, hR.entries_eq, hR.mem_iff, hR.rounds, hR.priority, rfl⟩
  | iterate =>
    rw [Machine.step, hR.head] at hstep
    cases hlim : m.limit with
    | none =>
      rw [hlim] at hstep
      cases hstep
    | some w =>
      cases hcur : m.current with
      | some c =>
        rw [hlim, hcur] at hstep
        cases hstep
      | none =>
        rw [hlim, hcur] at hstep
        -- leaving the loop only moves the time
        have hleave : ∃ bins', Refines
            { m with eq := { m.eq with curTick := w }, limit := none }
            { g with limit := none } bins' :=
          ⟨bins, hR.represents, hR.entries_eq, hR.mem_iff, hR.rounds, hR.priority, rfl⟩
        have hglim : g.limit = some w := hR.limit.trans hlim
        cases hes : g.entries with
        | nil =>
          rw [hes] at hstep
          obtain rfl := Except.ok.inj hstep
          rw [Agenda.step, hglim, hes]
          rw [hcur, hes] at hleave
          exact hleave
        | cons x es =>
          have hkey : (m.eq.heap x.event).when_ = (ofLex x.key).1 := by
            have hmem : x ∈ entries m.eq.heap bins := by
              rw [hR.entries_eq, hes]
              exact List.mem_cons_self
            obtain ⟨p, -, rfl⟩ := List.mem_map.mp hmem
            rfl
          rw [hes] at hstep
          rw [Agenda.step, hglim, hes]
          dsimp only [List.head?_cons, Option.map_some] at hstep ⊢
          rw [hkey] at hstep
          split at hstep
          · rename_i hgt
            rw [if_pos hgt]
            obtain rfl := Except.ok.inj hstep
            rw [hcur, hes] at hleave
            exact hleave
          · rename_i hgt
            rw [if_neg hgt]
            obtain rfl := Except.ok.inj hstep
            have hserve := hR.startService hes
            rw [hglim] at hserve
            exact hserve
  | finish =>
    rw [Machine.step] at hstep
    cases hcur : m.current with
    | none =>
      rw [hcur] at hstep
      cases hstep
    | some e =>
      rw [hcur] at hstep
      dsimp only at hstep
      unfold Machine.endService at hstep
      split at hstep
      · split at hstep
        · cases hstep
        · obtain rfl := Except.ok.inj hstep
          exact ⟨bins, hR.represents, hR.entries_eq, hR.mem_iff, hR.rounds, hR.priority,
            hR.limit⟩
      · obtain rfl := Except.ok.inj hstep
        exact hR.setEvent (Event.release_links _) (owns_release _ _)
  | foreign e new =>
    rw [Machine.step] at hstep
    split at hstep
    · cases hstep
    · rename_i hno
      rw [Bool.or_eq_true, not_or, Bool.not_eq_true, Bool.not_eq_true] at hno
      obtain rfl := Except.ok.inj hstep
      have hnot := hR.not_mem hno.1
      have ho := outcome_set hR.represents e new fun hmem => absurd hmem hnot
      rw [hR.entries_eq] at ho
      refine hR.outcome ho ?_ ?_ hR.length rfl hR.limit
      · rw [hR.events, hno.2]
        exact iff_of_false hnot (by simp)
      · intro p _
        rw [hR.events]

end Steps

/-! ## Runs -/

/-- The assertions of an operation hold. -/
def Machine.Allowed (m : Machine) : Action → Prop
  | .schedule e w =>
      m.eq.curTick ≤ w ∧ (m.eq.heap e).scheduled = false ∧ (m.eq.heap e).initialized = true
  | .deschedule e => m.eq.owns (m.eq.heap e) = true ∧ (m.eq.heap e).initialized = true
  | .reschedule e w always =>
      m.eq.curTick ≤ w ∧ (always || (m.eq.heap e).scheduled) = true ∧
        (m.eq.heap e).initialized = true ∧
        ((m.eq.heap e).scheduled = true → (m.eq.heap e).queue = some m.eq.id)
  | .squash _ => True
  | .serviceOne => m.limit = none ∧ m.current = none ∧ m.eq.head ≠ none
  | .serviceEvents _ => m.limit = none ∧ m.current = none
  | .iterate => m.limit ≠ none ∧ m.current = none
  | .finish => ∃ e, m.current = some e ∧ ((m.eq.heap e).isExitEvent = true →
      ((m.eq.heap e).managed && (m.eq.heap e).isMainQueue) = false)
  | .foreign e new => m.eq.owns (m.eq.heap e) = false ∧ m.eq.owns new = false

/-- An operation whose assertions hold returns. -/
theorem Refines.returns (hR : Refines m g bins) {a : Action} (ha : m.Allowed a) :
    ∃ m', m.step a = .ok m' := by
  cases a with
  | schedule e w =>
    obtain ⟨m', hm', -⟩ := hR.schedule ha.1 ha.2.1 ha.2.2
    exact ⟨m', hm'⟩
  | deschedule e =>
    obtain ⟨m', hm', -⟩ := hR.deschedule ha.1 ha.2
    exact ⟨m', hm'⟩
  | reschedule e w always =>
    obtain ⟨m', hm', -⟩ := hR.reschedule ha.1 ha.2.1 ha.2.2.1 ha.2.2.2
    exact ⟨m', hm'⟩
  | squash e => exact ⟨_, rfl⟩
  | serviceOne =>
    obtain ⟨hlim, hcur, hhead⟩ := ha
    obtain ⟨e, he⟩ := Option.ne_none_iff_exists'.mp hhead
    refine ⟨m.startService e, ?_⟩
    rw [Machine.step, if_neg (by simp [hlim, hcur]), he]
  | serviceEvents w =>
    obtain ⟨hlim, hcur⟩ := ha
    rw [Machine.step, if_neg (by simp [hlim, hcur])]
    exact ⟨_, rfl⟩
  | iterate =>
    obtain ⟨hlim, hcur⟩ := ha
    obtain ⟨w, hw⟩ := Option.ne_none_iff_exists'.mp hlim
    rw [Machine.step, hw, hcur]
    dsimp only
    split
    · exact ⟨_, rfl⟩
    · split <;> exact ⟨_, rfl⟩
  | finish =>
    obtain ⟨e, hcur, hexit⟩ := ha
    rw [Machine.step, hcur]
    dsimp only
    unfold Machine.endService
    split
    · rename_i h
      rw [if_neg (by rw [hexit h]; simp)]
      exact ⟨_, rfl⟩
    · exact ⟨_, rfl⟩
  | foreign e new =>
    rw [Machine.step, if_neg (by rw [ha.1, ha.2]; simp)]
    exact ⟨_, rfl⟩

/-- The entries of the bins are sorted. -/
theorem Represents.sorted_entries {head : Option Ptr} (hr : Represents h head bins) :
    (entries h bins).Pairwise Entry.Before := by
  unfold entries order
  rw [List.pairwise_map, List.pairwise_flatMap]
  constructor
  · intro b hb
    apply List.pairwise_of_forall_mem_list
    intro p hp p' hp'
    show (h p).key ≤ (h p').key
    rw [hr.key_of_mem hb hp, hr.key_of_mem hb hp']
  · apply hr.sorted.imp_of_mem
    intro b b' hb hb' hlt p hp p' hp'
    show (h p).key ≤ (h p').key
    rw [hr.key_of_mem hb hp, hr.key_of_mem hb' hp']
    exact hlt.le

/-- The heaps differ only in `nextBin` pointers of events below the top of their bin, or
outside the queue. -/
def StaleOnly (bins : List Bin) (h h' : Heap) : Prop :=
  (∀ p, ∃ o, h' p = { h p with nextBin := o }) ∧
    ∀ b ∈ bins, (h' b.top).nextBin = (h b.top).nextBin

/-- Stale pointers do not matter for the refinement. -/
theorem Refines.stale (hR : Refines m g bins) (hstale : StaleOnly bins m.eq.heap h') :
    Refines { m with eq := { m.eq with heap := h' } } g bins := by
  have hfield : ∀ {β : Type} (f : Event → β), (∀ (y : Event) o, f { y with nextBin := o } = f y) →
      ∀ p, f (h' p) = f (m.eq.heap p) := by
    intro β f hf p
    obtain ⟨o, ho⟩ := hstale.1 p
    rw [ho, hf]
  constructor
  · apply hR.represents.congr
    · exact hstale.2
    · intro p _
      exact ⟨hfield Event.nextInBin (fun _ _ => rfl) p, hfield Event.key (fun _ _ => rfl) p⟩
  · rw [← hR.entries_eq]
    exact entries_congr fun p _ => hfield Event.key (fun _ _ => rfl) p
  · intro p
    rw [hR.mem_iff p, ← hfield m.eq.owns (fun _ _ => rfl) p]
    rfl
  · exact hR.rounds
  · intro p
    rw [hR.priority p]
    exact (hfield Event.priority (fun _ _ => rfl) p).symm
  · exact hR.limit

theorem refines_init {id : ℕ} {heap : Heap} {t : Tick}
    (hheap : ∀ p, (heap p).scheduled = true → (heap p).queue ≠ some id) :
    Refines (Machine.init id heap t) (Agenda.init heap) [] := by
  refine ⟨⟨rfl, ?_, List.nodup_nil, ?_, List.Pairwise.nil⟩, rfl, ?_, Nat.le_refl 0, fun _ => rfl, rfl⟩
  · intro b hb
    cases hb
  · intro b hb
    cases hb
  · intro p
    refine iff_of_false (by simp) ?_
    intro howns
    obtain ⟨hs, hq⟩ := owns_iff.mp howns
    exact hheap p hs hq

/-- **The event queue is its agenda.**  After any operations on a queue that starts
empty, the bins hold the entries of the agenda: the scheduled events sorted by key,
the last one inserted first among equal keys.  The head is the first of them, every
event scheduled here occurs exactly once and can be removed, no operation whose
assertions hold fails, and whatever stale `nextBin` pointers contain, all later
operations do the same on the agenda. -/
theorem eventQueue_refines_agenda (id : ℕ) (heap : Heap) (t : Tick) (as : List Action) {m : Machine}
    (hheap : ∀ p, (heap p).scheduled = true → (heap p).queue ≠ some id)
    (hrun : run Machine.step (Machine.init id heap t) as = .ok m) :
    ∃ bins, Represents m.eq.heap m.eq.head bins ∧
      entries m.eq.heap bins = (as.foldl Agenda.step (Agenda.init heap)).entries ∧
      (entries m.eq.heap bins).Pairwise Entry.Before ∧
      m.eq.head = (entries m.eq.heap bins).head?.map Entry.event ∧
      (order bins).Nodup ∧
      (∀ p, p ∈ order bins ↔ m.eq.owns (m.eq.heap p) = true) ∧
      (∀ p, m.eq.owns (m.eq.heap p) = true → ∃ q, m.eq.remove m.inserted p = .ok q) ∧
      (∀ a, m.Allowed a → ∃ m', m.step a = .ok m') ∧
      ∀ h', StaleOnly bins m.eq.heap h' → ∀ as' m',
        run Machine.step { m with eq := { m.eq with heap := h' } } as' = .ok m' →
          ∃ bins', Represents m'.eq.heap m'.eq.head bins' ∧
            entries m'.eq.heap bins' =
              ((as ++ as').foldl Agenda.step (Agenda.init heap)).entries := by
  have hsim : ∀ s g a s', (∃ bins, Refines s g bins) → Machine.step s a = .ok s' →
      ∃ bins, Refines s' (g.step a) bins := by
    rintro s g a s' ⟨bins, hR⟩ hstep
    exact hR.step hstep
  obtain ⟨bins, hR⟩ := run_simulation hsim ⟨[], refines_init hheap⟩ hrun
  refine ⟨bins, hR.represents, hR.entries_eq, hR.represents.sorted_entries, ?_,
    hR.represents.nodup, hR.mem_iff, ?_, fun a ha => hR.returns ha, ?_⟩
  · rw [hR.entries_eq]
    exact hR.head
  · intro p howns
    obtain ⟨h', head', bins', hq, -⟩ :=
      outcome_remove hR.represents ((hR.mem_iff p).mpr howns) hR.rounds howns
    exact ⟨_, hq⟩
  · intro h' hstale as' m' hrun'
    obtain ⟨bins', hR'⟩ := run_simulation hsim ⟨bins, hR.stale hstale⟩ hrun'
    rw [List.foldl_append]
    exact ⟨bins', hR'.represents, hR'.entries_eq⟩

/-- Two events with one key, an earlier one, and a removal from the middle. -/
theorem eventQueue_refines_agenda_oneBin :
    ∃ m, run Machine.step (Machine.init 0 (fun _ => {}) 0)
        [.schedule 0 5, .schedule 1 5, .schedule 2 3, .schedule 3 5, .deschedule 1, .serviceOne] =
          .ok m ∧
      m.eq.head = some 3 ∧ ∃ bins, order bins = [3, 0] ∧ Represents m.eq.heap m.eq.head bins := by
  refine ⟨_, rfl, rfl, ?_⟩
  obtain ⟨bins, hr, hes, -⟩ := eventQueue_refines_agenda 0 (fun _ => {}) 0
    [.schedule 0 5, .schedule 1 5, .schedule 2 3, .schedule 3 5, .deschedule 1, .serviceOne]
    (by intro p h; cases h) rfl
  refine ⟨bins, ?_, hr⟩
  rw [← events_entries, hes]
  rfl

end Gem5.Sim
