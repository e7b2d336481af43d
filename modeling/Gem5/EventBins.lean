/-
# The bins of the event queue

What the two-level pointer structure of `EventQueue` represents.  `Represents h head
bins` says that the tops of the bins are linked by `nextBin` from the head, that
every bin is a stack linked by `nextInBin`, and that the bins are sorted by key and
share no event.  The `nextBin` of an event that is not a top does not occur in it:
stale pointers are free.

`insert` and `remove` are shown to be insertion into and removal from this
structure; `bins.flatMap Bin.events` is the order in which the events will be served.
-/
import Gem5.EventQueue
import Gem5.Ordered

open Linked

namespace Gem5.Sim

/-! ## Keys -/

/-- The key of an event: its time, then its priority. -/
def Event.key (e : Event) : Tick ×ₗ ℤ := toLex (e.when_, e.priority)

theorem Event.lt_iff {l r : Event} : l.lt r = true ↔ l.key < r.key := by
  unfold Event.lt Event.key
  rw [Prod.Lex.toLex_lt_toLex]
  simp

theorem Event.le_iff {l r : Event} : l.le r = true ↔ l.key ≤ r.key := by
  unfold Event.le Event.key
  rw [Prod.Lex.toLex_le_toLex]
  simp

theorem Event.eqv_iff {l r : Event} : l.eqv r = true ↔ l.key = r.key := by
  unfold Event.eqv Event.key
  simp [Prod.ext_iff]

/-! ## Assigning links -/

theorem setNextBin_of_ne (h : Heap) {p p' : Ptr} (o : Option Ptr) (hne : p' ≠ p) :
    h.setNextBin p o p' = h p' := Heap.set_of_ne h _ hne

theorem nextBin_setNextBin (h : Heap) (p : Ptr) (o : Option Ptr) :
    (h.setNextBin p o p).nextBin = o := by
  unfold Heap.setNextBin
  rw [Heap.set_self]

/-- Assigning `nextBin` keeps the other link and the key of every event. -/
theorem setNextBin_same (h : Heap) (p : Ptr) (o : Option Ptr) (p' : Ptr) :
    (h.setNextBin p o p').nextInBin = (h p').nextInBin ∧ (h.setNextBin p o p').key = (h p').key := by
  unfold Heap.setNextBin
  by_cases hp : p' = p
  · subst hp
    rw [Heap.set_self]
    exact ⟨rfl, rfl⟩
  · rw [Heap.set_of_ne h _ hp]
    exact ⟨rfl, rfl⟩

/-- Assigning `nextInBin` keeps the other link and the key of every event. -/
theorem setNextInBin_same (h : Heap) (p : Ptr) (o : Option Ptr) (p' : Ptr) :
    (h.setNextInBin p o p').nextBin = (h p').nextBin ∧
      (h.setNextInBin p o p').key = (h p').key := by
  unfold Heap.setNextInBin
  by_cases hp : p' = p
  · subst hp
    rw [Heap.set_self]
    exact ⟨rfl, rfl⟩
  · rw [Heap.set_of_ne h _ hp]
    exact ⟨rfl, rfl⟩

/-! ## Representation -/

/-- A bin: its top and the events below it. -/
structure Bin where
  top : Ptr
  rest : List Ptr

def Bin.events (b : Bin) : List Ptr := b.top :: b.rest

/-- The events of the bins in the order in which they will be served. -/
def order (bins : List Bin) : List Ptr := bins.flatMap Bin.events

@[simp] theorem order_nil : order [] = [] := rfl

@[simp] theorem order_cons (b : Bin) (bins : List Bin) :
    order (b :: bins) = b.top :: (b.rest ++ order bins) := rfl

theorem order_append (bins bins' : List Bin) : order (bins ++ bins') = order bins ++ order bins' :=
  List.flatMap_append

variable {bins : List Bin} {b : Bin} {h h' : Heap} {head o : Option Ptr} {e : Ptr} {rounds : ℕ}

theorem mem_order {p : Ptr} :
    p ∈ order bins ↔ ∃ b ∈ bins, p = b.top ∨ p ∈ b.rest := by
  unfold order
  rw [List.mem_flatMap]
  constructor
  · rintro ⟨b, hb, hp⟩
    exact ⟨b, hb, List.mem_cons.mp hp⟩
  · rintro ⟨b, hb, hp⟩
    exact ⟨b, hb, List.mem_cons.mpr hp⟩

theorem top_mem_order (hb : b ∈ bins) : b.top ∈ order bins :=
  mem_order.mpr ⟨b, hb, .inl rfl⟩

/-- The pointers from `head` on represent the bins. -/
structure Represents (h : Heap) (head : Option Ptr) (bins : List Bin) : Prop where
  tops : Chain (fun p => (h p).nextBin) head (bins.map Bin.top)
  inBin : ∀ b ∈ bins, Chain (fun p => (h p).nextInBin) (h b.top).nextInBin b.rest
  nodup : (order bins).Nodup
  sameKey : ∀ b ∈ bins, ∀ p ∈ b.rest, (h p).key = (h b.top).key
  sorted : bins.Pairwise fun b b' => (h b.top).key < (h b'.top).key

/-- **Stale pointers are free**: of the events that are not on top of their bin, only
the key and `nextInBin` matter. -/
theorem Represents.congr (hr : Represents h head bins) (h' : Heap)
    (htop : ∀ b ∈ bins, (h' b.top).nextBin = (h b.top).nextBin)
    (hin : ∀ p ∈ order bins, (h' p).nextInBin = (h p).nextInBin ∧ (h' p).key = (h p).key) :
    Represents h' head bins := by
  have hkey : ∀ b ∈ bins, (h' b.top).key = (h b.top).key := fun b hb =>
    (hin _ (top_mem_order hb)).2
  constructor
  · apply hr.tops.congr
    intro p hp
    obtain ⟨b, hb, rfl⟩ := List.mem_map.mp hp
    exact htop b hb
  · intro b hb
    rw [(hin _ (top_mem_order hb)).1]
    apply (hr.inBin b hb).congr
    intro p hp
    exact (hin p (mem_order.mpr ⟨b, hb, .inr hp⟩)).1
  · exact hr.nodup
  · intro b hb p hp
    rw [(hin p (mem_order.mpr ⟨b, hb, .inr hp⟩)).2, hkey b hb]
    exact hr.sameKey b hb p hp
  · apply hr.sorted.imp_of_mem
    intro b b' hb hb' hlt
    rw [hkey b hb, hkey b' hb']
    exact hlt

/-- An event may change in what is neither link nor key, and anyhow when it is not in
the bins. -/
theorem Represents.set (hr : Represents h head bins) (p : Ptr) (e : Event) (hsame : p ∈ order bins →
      e.nextBin = (h p).nextBin ∧ e.nextInBin = (h p).nextInBin ∧ e.key = (h p).key) :
    Represents (h.set p e) head bins := by
  have hfield : ∀ p' ∈ order bins, (h.set p e p').nextBin = (h p').nextBin ∧
      (h.set p e p').nextInBin = (h p').nextInBin ∧ (h.set p e p').key = (h p').key := by
    intro p' hp'
    by_cases heq : p' = p
    · subst heq
      rw [Heap.set_self]
      exact hsame hp'
    · rw [Heap.set_of_ne h e heq]
      exact ⟨rfl, rfl, rfl⟩
  apply hr.congr
  · intro b hb
    exact (hfield _ (top_mem_order hb)).1
  · intro p' hp'
    exact (hfield p' hp').2

/-- The first event is the head. -/
theorem Represents.head_eq (hr : Represents h head bins) : head = (order bins).head? := by
  cases bins with
  | nil => exact hr.tops
  | cons b bins => exact hr.tops.1

/-- The bins behind a given one. -/
theorem Represents.behind {pre suf : List Bin} (hr : Represents h head (pre ++ b :: suf)) :
    Represents h (h b.top).nextBin suf := by
  have hsub : suf ⊆ pre ++ b :: suf := by
    intro c hc
    exact List.mem_append_right pre (List.mem_cons_of_mem b hc)
  constructor
  · have htops := hr.tops
    rw [List.map_append, List.map_cons] at htops
    exact htops.behind
  · exact fun c hc => hr.inBin c (hsub hc)
  · have hnodup := hr.nodup
    rw [order_append, order_cons] at hnodup
    have hsuf := (List.nodup_append.mp hnodup).2.1
    exact (List.nodup_append.mp (List.nodup_cons.mp hsuf).2).2.1
  · exact fun c hc => hr.sameKey c (hsub hc)
  · have hsorted := (List.pairwise_append.mp hr.sorted).2.1
    exact (List.pairwise_cons.mp hsorted).2

theorem Represents.tail (hr : Represents h head (b :: bins)) :
    Represents h (h b.top).nextBin bins :=
  Represents.behind (show Represents h head ([] ++ b :: bins) from hr)

/-- A bin in front of the others. -/
theorem Represents.cons (hr : Represents h o bins) (b : Bin) (hnext : (h b.top).nextBin = o)
    (hin : Chain (fun p => (h p).nextInBin) (h b.top).nextInBin b.rest)
    (hnodup : (order (b :: bins)).Nodup) (hsame : ∀ p ∈ b.rest, (h p).key = (h b.top).key)
    (hlt : ∀ c ∈ bins, (h b.top).key < (h c.top).key) :
    Represents h (some b.top) (b :: bins) := by
  constructor
  · refine ⟨rfl, ?_⟩
    show Chain _ (h b.top).nextBin _
    rw [hnext]
    exact hr.tops
  · intro c hc
    rcases List.mem_cons.mp hc with rfl | hc
    · exact hin
    · exact hr.inBin c hc
  · exact hnodup
  · intro c hc
    rcases List.mem_cons.mp hc with rfl | hc
    · exact hsame
    · exact hr.sameKey c hc
  · exact List.pairwise_cons.mpr ⟨hlt, hr.sorted⟩

/-- The bins behind a given one can be replaced, by making its `nextBin` point to the
new ones. -/
theorem Represents.splice {pre suf suf' : List Bin} (hr : Represents h head (pre ++ b :: suf))
    (hr' : Represents h' o suf') (hkeep : ∀ p ∈ order (pre ++ [b]), h' p = h p)
    (hdisj : ∀ p ∈ order (pre ++ [b]), p ∉ order suf')
    (hlt : ∀ c ∈ pre ++ [b], ∀ c' ∈ suf', (h c.top).key < (h' c'.top).key) :
    Represents (h'.setNextBin b.top o) head (pre ++ b :: suf') := by
  have hbmem : b.top ∈ order (pre ++ [b]) := top_mem_order (by simp)
  have hsame := setNextBin_same h' b.top o
  have hassoc : ∀ l, pre ++ b :: l = (pre ++ [b]) ++ l := by simp
  have hkey : ∀ c ∈ pre ++ [b], (h'.setNextBin b.top o c.top).key = (h c.top).key := by
    intro c hc
    rw [(hsame c.top).2, hkeep _ (top_mem_order hc)]
  -- the new part, after the assignment to the last old top
  have hnew := hr'.congr (h'.setNextBin b.top o) (fun c hc => by
    rw [setNextBin_of_ne h' o]
    intro heq
    exact hdisj b.top hbmem (heq ▸ top_mem_order hc)) (fun p _ => hsame p)
  rw [hassoc] at hr ⊢
  constructor
  · have htops := hr.tops
    rw [List.map_append, List.map_append, List.append_assoc] at htops ⊢
    refine htops.splice (fun p hp => ?_) ?_
    · obtain ⟨c, hc, rfl⟩ := List.mem_map.mp hp
      have hne : c.top ≠ b.top := by
        intro heq
        have hlt := List.pairwise_append.mp (List.pairwise_append.mp hr.sorted).1
        have := hlt.2.2 c hc b (List.mem_singleton_self b)
        rw [heq] at this
        exact lt_irrefl _ this
      rw [setNextBin_of_ne h' o hne, hkeep _ (top_mem_order (List.mem_append_left _ hc))]
    · rw [nextBin_setNextBin]
      exact hnew.tops
  · intro c hc
    rcases List.mem_append.mp hc with hc | hc
    · rw [(hsame c.top).1, hkeep _ (top_mem_order hc)]
      apply (hr.inBin c (List.mem_append_left _ hc)).congr
      intro p hp
      rw [(hsame p).1, hkeep p (mem_order.mpr ⟨c, hc, .inr hp⟩)]
    · exact hnew.inBin c hc
  · have hold := hr.nodup
    rw [order_append] at hold ⊢
    refine List.nodup_append.mpr ⟨(List.nodup_append.mp hold).1, hr'.nodup, ?_⟩
    intro p hp p' hp' heq
    exact hdisj p hp (heq ▸ hp')
  · intro c hc p hp
    rcases List.mem_append.mp hc with hc | hc
    · rw [(hsame p).2, hkey c hc, hkeep p (mem_order.mpr ⟨c, hc, .inr hp⟩)]
      exact hr.sameKey c (List.mem_append_left _ hc) p hp
    · exact hnew.sameKey c hc p hp
  · refine List.pairwise_append.mpr ⟨?_, hnew.sorted, ?_⟩
    · apply (List.pairwise_append.mp hr.sorted).1.imp_of_mem
      intro c c' hc hc' hcc'
      rw [hkey c hc, hkey c' hc']
      exact hcc'
    · intro c hc c' hc'
      rw [hkey c hc, (hsame c'.top).2]
      exact hlt c hc c' hc'

/-! ## Entries -/

/-- An event without its links. -/
def Event.data (e : Event) : Event := { e with nextBin := none, nextInBin := none }

/-- Only links differ between the two heaps. -/
def LinksOnly (h h' : Heap) : Prop := ∀ p, (h' p).data = (h p).data

theorem LinksOnly.trans {h'' : Heap} (h1 : LinksOnly h h') (h2 : LinksOnly h' h'') :
    LinksOnly h h'' := fun p => (h2 p).trans (h1 p)

/-- A field other than the links is a field of the data. -/
theorem LinksOnly.field (hl : LinksOnly h h') {β : Type*} (f : Event → β)
    (hf : ∀ e : Event, f e = f e.data) (p : Ptr) : f (h' p) = f (h p) := by
  rw [hf (h' p), hf (h p), hl p]

theorem LinksOnly.key (hl : LinksOnly h h') (p : Ptr) : (h' p).key = (h p).key :=
  hl.field Event.key (fun _ => rfl) p

theorem linksOnly_set {p : Ptr} {e : Event} (he : e.data = (h p).data) :
    LinksOnly h (h.set p e) := by
  intro p'
  by_cases hp : p' = p
  · subst hp
    rw [Heap.set_self]
    exact he
  · rw [Heap.set_of_ne h e hp]

/-- A scheduled event with its key. -/
structure Entry where
  event : Ptr
  key : Tick ×ₗ ℤ
  deriving DecidableEq

def entry (h : Heap) (p : Ptr) : Entry := ⟨p, (h p).key⟩

/-- The entries of the bins, in the order in which they will be served. -/
def entries (h : Heap) (bins : List Bin) : List Entry := (order bins).map (entry h)

/-- `x` is served before `y`, or has the same key. -/
abbrev Entry.Before (x y : Entry) : Prop := x.key ≤ y.key

/-! ## Insertion -/

/-- The bins after an event is put in front of them. -/
def place (h : Heap) (e : Ptr) : List Bin → List Bin
  | [] => [⟨e, []⟩]
  | b :: bins => if (h e).lt (h b.top) then ⟨e, []⟩ :: b :: bins else ⟨e, b.top :: b.rest⟩ :: bins

theorem order_place (h : Heap) (e : Ptr) (bins : List Bin) :
    order (place h e bins) = e :: order bins := by
  cases bins with
  | nil => rfl
  | cons b bins =>
    show order (if (h e).lt (h b.top) = true then _ else _) = _
    split <;> rfl

/-- All bins are still not before a key that was not behind them. -/
theorem key_le_place (hle : ∀ b ∈ bins, (h e).key ≤ (h b.top).key) :
    ∀ b ∈ place h e bins, (h e).key ≤ (h b.top).key := by
  intro b hb
  cases bins with
  | nil =>
    obtain rfl := List.mem_singleton.mp hb
    exact le_refl _
  | cons c bins =>
    rw [place] at hb
    split at hb
    · rcases List.mem_cons.mp hb with rfl | hb
      · exact le_refl _
      · exact hle b hb
    · rcases List.mem_cons.mp hb with rfl | hb
      · exact le_refl _
      · exact hle b (List.mem_cons_of_mem c hb)

theorem insertBefore_of_ne (h : Heap) {p : Ptr} (o : Option Ptr) (hne : p ≠ e) :
    insertBefore h e o p = h p := by
  unfold insertBefore
  split
  · exact Heap.set_of_ne h _ hne
  · split <;> exact Heap.set_of_ne h _ hne

theorem linksOnly_insertBefore (h : Heap) (e : Ptr) (o : Option Ptr) :
    LinksOnly h (insertBefore h e o) := by
  unfold insertBefore
  split
  · exact linksOnly_set rfl
  · split <;> exact linksOnly_set rfl

/-- **`insertBefore` puts the event in front of the bins**, when it is not later than
the first of them. -/
theorem insertBefore_represents (hr : Represents h o bins) (he : e ∉ order bins)
    (hle : ∀ b ∈ bins.head?, (h e).key ≤ (h b.top).key) :
    Represents (insertBefore h e o) (some e) (place h e bins) := by
  have hlinks := linksOnly_insertBefore h e o
  -- the old bins do not mention the event
  have hne : ∀ p ∈ order bins, p ≠ e := fun p hp heq => he (heq ▸ hp)
  have hold : Represents (insertBefore h e o) o bins := by
    apply hr.congr
    · intro b hb
      rw [insertBefore_of_ne h o (hne _ (top_mem_order hb))]
    · intro p hp
      rw [insertBefore_of_ne h o (hne p hp)]
      exact ⟨rfl, rfl⟩
  have hnodup : (order (place h e bins)).Nodup := by
    rw [order_place]
    exact List.nodup_cons.mpr ⟨he, hr.nodup⟩
  cases bins with
  | nil =>
    obtain rfl : o = none := hr.tops
    have hself : insertBefore h e none e = { h e with nextBin := none, nextInBin := none } :=
      Heap.set_self h e _
    refine hold.cons ⟨e, []⟩ ?_ ?_ hnodup ?_ ?_
    · rw [hself]
    · rw [hself]
      exact chain_nil.mpr rfl
    · intro p hp
      cases hp
    · intro c hc
      cases hc
  | cons b bins =>
    obtain rfl : o = some b.top := hr.tops.1
    by_cases hlt : (h e).lt (h b.top) = true
    · -- a new bin in front
      have hself : insertBefore h e (some b.top) e =
          { h e with nextBin := some b.top, nextInBin := none } := by
        unfold insertBefore
        dsimp only
        rw [if_pos hlt]
        exact Heap.set_self h e _
      have hplace : place h e (b :: bins) = ⟨e, []⟩ :: b :: bins := if_pos hlt
      rw [hplace] at hnodup ⊢
      refine hold.cons ⟨e, []⟩ ?_ ?_ hnodup ?_ ?_
      · rw [hself]
      · rw [hself]
        exact chain_nil.mpr rfl
      · intro p hp
        cases hp
      · intro c hc
        rw [hlinks.key, hlinks.key]
        have hfirst := Event.lt_iff.mp hlt
        rcases List.mem_cons.mp hc with rfl | hc
        · exact hfirst
        · exact hfirst.trans ((List.pairwise_cons.mp hr.sorted).1 c hc)
    · -- on top of the first bin, whose `nextBin` it takes over
      have hself : insertBefore h e (some b.top) e =
          { h e with nextBin := (h b.top).nextBin, nextInBin := some b.top } := by
        unfold insertBefore
        dsimp only
        rw [if_neg hlt]
        exact Heap.set_self h e _
      have hplace : place h e (b :: bins) = ⟨e, b.top :: b.rest⟩ :: bins := if_neg hlt
      have hkey : (h e).key = (h b.top).key :=
        le_antisymm (hle b rfl) (not_lt.mp fun hcon => hlt (Event.lt_iff.mpr hcon))
      rw [hplace] at hnodup ⊢
      have hbehind := hold.tail
      rw [insertBefore_of_ne h _ (hne _ (top_mem_order List.mem_cons_self))] at hbehind
      refine hbehind.cons ⟨e, b.top :: b.rest⟩ ?_ ?_ hnodup ?_ ?_
      · rw [hself]
      · rw [hself]
        exact ⟨rfl, hold.inBin b List.mem_cons_self⟩
      · intro p hp
        rw [hlinks.key, hlinks.key, hkey]
        rcases List.mem_cons.mp hp with rfl | hp
        · rfl
        · exact hr.sameKey b List.mem_cons_self p hp
      · intro c hc
        rw [hlinks.key, hlinks.key, hkey]
        exact (List.pairwise_cons.mp hr.sorted).1 c hc

/-- **Where the walk along the bins ends**: behind the last bin that is before the
event.  The first bin must be before it. -/
theorem findBin_split (hr : Represents h head (b :: bins)) (hrounds : bins.length ≤ rounds)
    (hb : (h b.top).key < (h e).key) :
    ∃ pre c suf, b :: bins = pre ++ c :: suf ∧
      findBin h rounds e b.top = some (c.top, (suf.map Bin.top).head?) ∧
      (∀ d ∈ pre ++ [c], (h d.top).key < (h e).key) ∧
      ∀ d ∈ suf, (h e).key ≤ (h d.top).key := by
  set t : Bin → Bool := fun d => (h d.top).lt (h e) with ht
  have hchain : Chain (fun p => (h p).nextBin) (h b.top).nextBin (bins.map Bin.top) := hr.tops.2
  have hwalk : findBin h rounds e b.top =
      some (((bins.takeWhile t).map Bin.top).getLastD b.top,
        ((bins.dropWhile t).map Bin.top).head?) := by
    unfold findBin
    rw [advance_eq hchain (by rw [List.length_map]; exact hrounds), List.takeWhile_map,
      List.dropWhile_map]
    rfl
  -- the bins that are passed end in a last one, since the first bin is before the event
  obtain ⟨pre, c, hpre, hlast⟩ : ∃ pre c, b :: bins.takeWhile t = pre ++ [c] ∧
      ((bins.takeWhile t).map Bin.top).getLastD b.top = c.top := by
    rcases List.eq_nil_or_concat (bins.takeWhile t) with hnil | ⟨pre, c, hpre⟩
    · exact ⟨[], b, by rw [hnil]; rfl, by rw [hnil]; rfl⟩
    · refine ⟨b :: pre, c, by rw [hpre]; simp, ?_⟩
      rw [hpre]
      simp
  have hsplit : b :: bins = pre ++ c :: bins.dropWhile t :=
    calc b :: bins
      _ = (b :: bins.takeWhile t) ++ bins.dropWhile t := by
          rw [List.cons_append, List.takeWhile_append_dropWhile]
      _ = pre ++ c :: bins.dropWhile t := by
          rw [hpre, List.append_assoc]
          rfl
  refine ⟨pre, c, bins.dropWhile t, hsplit, by rw [hwalk, hlast], ?_, ?_⟩
  · intro d hd
    rw [← hpre] at hd
    rcases List.mem_cons.mp hd with rfl | hd
    · exact hb
    · exact Event.lt_iff.mp (List.mem_takeWhile_imp (p := t) hd)
  · -- the first bin that is not before the event, and the later ones by sortedness
    have hsorted := hr.sorted
    rw [hsplit] at hsorted
    have hsuf := (List.pairwise_cons.mp (List.pairwise_append.mp hsorted).2.1).2
    have hhead := List.head?_dropWhile_not t bins
    intro d hd
    cases hdrop : bins.dropWhile t with
    | nil =>
      rw [hdrop] at hd
      cases hd
    | cons c' suf =>
      rw [hdrop] at hd hsuf hhead
      have hc' : (h e).key ≤ (h c'.top).key := by
        apply not_lt.mp
        intro hcon
        have htrue : t c' = true := Event.lt_iff.mpr hcon
        simp [htrue] at hhead
      rcases List.mem_cons.mp hd with rfl | hd
      · exact hc'
      · exact hc'.trans ((List.pairwise_cons.mp hsuf).1 d hd).le

/-- The entries of a list that the key of `e` splits. -/
theorem entries_insert (l l' : List Bin) {bins' : List Bin} (hlinks : LinksOnly h h')
    (hl : ∀ p ∈ order l, (h p).key < (h e).key)
    (hl' : ∀ p ∈ (order l').head?, (h e).key ≤ (h p).key)
    (horder : order bins' = order l ++ e :: order l') :
    entries h' bins' = (entries h (l ++ l')).orderedInsert Entry.Before (entry h e) := by
  have hentry : entry h' = entry h := by
    funext p
    unfold entry
    rw [hlinks.key]
  unfold entries
  rw [horder, order_append, hentry, List.map_append, List.map_cons, List.map_append]
  symm
  apply Ordered.orderedInsert_append
  · intro x hx
    obtain ⟨p, hp, rfl⟩ := List.mem_map.mp hx
    exact not_le.mpr (hl p hp)
  · intro x hx
    rw [List.head?_map] at hx
    obtain ⟨p, hp, rfl⟩ := Option.map_eq_some_iff.mp hx
    exact hl' p hp

/-- All events of a bin have the key of its top. -/
theorem Represents.key_of_mem (hr : Represents h head bins) (hb : b ∈ bins) {p : Ptr}
    (hp : p ∈ b.events) :
    (h p).key = (h b.top).key := by
  rcases List.mem_cons.mp hp with rfl | hp
  · rfl
  · exact hr.sameKey b hb p hp

/-- **`insert` is ordered insertion**: the event goes in front of the events that are
not before it. -/
theorem insert_represents {q : EventQueue} (hr : Represents q.heap q.head bins)
    (he : e ∉ order bins) (hrounds : bins.length ≤ rounds) :
    ∃ h' head' bins', q.insert rounds e = .ok { q with heap := h', head := head' } ∧
      Represents h' head' bins' ∧ LinksOnly q.heap h' ∧
      entries h' bins' =
        (entries q.heap bins).orderedInsert Entry.Before (entry q.heap e) := by
  cases bins with
  | nil =>
    have hhead : q.head = none := hr.tops
    refine ⟨_, _, [⟨e, []⟩], by rw [EventQueue.insert, hhead], ?_,
      linksOnly_insertBefore _ _ _, ?_⟩
    · rw [hhead] at hr
      exact insertBefore_represents hr he (by simp)
    · exact entries_insert [] [] (linksOnly_insertBefore _ _ _) (by simp)
        (by simp) rfl
  | cons b bins =>
    have hhead : q.head = some b.top := hr.tops.1
    by_cases hle : (q.heap e).le (q.heap b.top) = true
    · have hkey := Event.le_iff.mp hle
      refine ⟨_, _, place q.heap e (b :: bins), by rw [EventQueue.insert, hhead]; exact if_pos hle,
        ?_, linksOnly_insertBefore _ _ _, ?_⟩
      · rw [hhead] at hr
        apply insertBefore_represents hr he
        intro c hc
        obtain rfl := Option.some.inj hc
        exact hkey
      · refine entries_insert [] (b :: bins) (linksOnly_insertBefore _ _ _)
          (by simp) ?_ (order_place _ _ _)
        intro p hp
        obtain rfl := Option.some.inj hp
        exact hkey
    · -- the event belongs behind the first bin
      have hb : (q.heap b.top).key < (q.heap e).key :=
        not_le.mp fun hcon => hle (Event.le_iff.mpr hcon)
      obtain ⟨pre, c, suf, hsplit, hwalk, hbefore, hafter⟩ :=
        findBin_split hr (Nat.le_of_succ_le hrounds) hb
      rw [hsplit] at hr he ⊢
      have hsuf := hr.behind
      have hassoc : pre ++ c :: suf = (pre ++ [c]) ++ suf := by simp
      have hefree : e ∉ order (pre ++ [c]) ∧ e ∉ order suf := by
        rw [hassoc, order_append, List.mem_append, not_or] at he
        exact he
      have hnodup := hr.nodup
      rw [hassoc, order_append] at hnodup
      have hcurr : (suf.map Bin.top).head? = (q.heap c.top).nextBin := hsuf.tops.eq_head?.symm
      have hins := insertBefore_represents hsuf hefree.2 fun d hd =>
        hafter d (List.mem_of_mem_head? hd)
      have hlinks := linksOnly_insertBefore q.heap e (q.heap c.top).nextBin
      refine ⟨_, _, pre ++ c :: place q.heap e suf, ?_, hr.splice hins ?_ ?_ ?_, ?_, ?_⟩
      · rw [EventQueue.insert, hhead]
        dsimp only
        rw [if_neg hle, hwalk, hcurr]
      · intro p hp
        exact insertBefore_of_ne _ _ fun heq => hefree.1 (heq ▸ hp)
      · intro p hp hcon
        rw [order_place] at hcon
        rcases List.mem_cons.mp hcon with rfl | hcon
        · exact hefree.1 hp
        · exact (List.nodup_append.mp hnodup).2.2 p hp p hcon rfl
      · intro d hd d' hd'
        rw [hlinks.key]
        exact (hbefore d hd).trans_le (key_le_place hafter d' hd')
      · exact hlinks.trans (linksOnly_set rfl)
      · rw [hassoc]
        refine entries_insert (pre ++ [c]) suf (hlinks.trans (linksOnly_set rfl)) ?_ ?_ ?_
        · intro p hp
          obtain ⟨d, hd, hp⟩ := mem_order.mp hp
          rw [hr.key_of_mem (hassoc ▸ List.mem_append_left suf hd) (List.mem_cons.mpr hp)]
          exact hbefore d hd
        · intro p hp
          obtain ⟨d, hd, hp⟩ := mem_order.mp (List.mem_of_mem_head? hp)
          rw [hr.key_of_mem (hassoc ▸ List.mem_append_right _ hd) (List.mem_cons.mpr hp)]
          exact hafter d hd
        · rw [← order_place q.heap, ← order_append, List.append_assoc]
          rfl

/-! ## Removal -/

/-- What is left of a bin without an event. -/
def Bin.without (b : Bin) (e : Ptr) : List Bin :=
  if e = b.top then
    match b.rest with
    | [] => []
    | p :: rest => [⟨p, rest⟩]
  else [⟨b.top, b.rest.filter (· ≠ e)⟩]

theorem order_without (hnodup : b.events.Nodup) (e : Ptr) :
    order (b.without e) = b.events.filter (· ≠ e) := by
  obtain ⟨top, rest⟩ := b
  unfold Bin.without Bin.events
  by_cases htop : e = top
  · subst htop
    have hrest : rest.filter (· ≠ e) = rest := by
      apply List.filter_eq_self.mpr
      intro p hp
      have hne : p ≠ e := fun heq => (List.nodup_cons.mp hnodup).1 (heq ▸ hp)
      exact decide_eq_true hne
    rw [if_pos rfl, List.filter_cons_of_neg (by simp), hrest]
    cases rest with
    | nil => rfl
    | cons r rest =>
      show r :: (rest ++ []) = r :: rest
      rw [List.append_nil]
  · rw [if_neg htop, List.filter_cons_of_pos (by simpa using Ne.symm htop)]
    show top :: (_ ++ []) = _
    rw [List.append_nil]

/-- Taking an event out of one bin takes it out of the order. -/
theorem order_remove (pre : List Bin) {suf : List Bin} (hnodup : (order (pre ++ b :: suf)).Nodup)
    (he : e ∈ b.events) :
    order (pre ++ (b.without e ++ suf)) = (order (pre ++ b :: suf)).filter (· ≠ e) := by
  have hcons : order (b :: suf) = b.events ++ order suf := rfl
  rw [order_append, hcons] at hnodup
  obtain ⟨-, hrest, hpre⟩ := List.nodup_append.mp hnodup
  obtain ⟨hb, -, hsuf⟩ := List.nodup_append.mp hrest
  have hpre' : (order pre).filter (· ≠ e) = order pre := by
    apply List.filter_eq_self.mpr
    intro p hp
    exact decide_eq_true (hpre p hp e (List.mem_append_left _ he))
  have hsuf' : (order suf).filter (· ≠ e) = order suf := by
    apply List.filter_eq_self.mpr
    intro p hp
    exact decide_eq_true (hsuf e he p hp).symm
  rw [order_append, order_append, order_append, order_without hb, hcons, List.filter_append,
    List.filter_append, hpre', hsuf']

/-- Unlinking an event that is not on top of its bin. -/
theorem chain_unlink {top : Ptr} {l l' : List Ptr}
    (hin : Chain (fun p => (h p).nextInBin) (h top).nextInBin (l ++ e :: l'))
    (hnodup : (top :: (l ++ e :: l')).Nodup) :
    Chain (fun p => (h.setNextInBin (l.getLastD top) (h e).nextInBin p).nextInBin)
      (h.setNextInBin (l.getLastD top) (h e).nextInBin top).nextInBin (l ++ l') := by
  -- the chain from the top, cut at the last node before the event
  obtain ⟨pre, c, hpre, hlast⟩ : ∃ pre c, top :: l = pre ++ [c] ∧ l.getLastD top = c := by
    rcases List.eq_nil_or_concat l with rfl | ⟨pre, c, rfl⟩
    · exact ⟨[], top, rfl, rfl⟩
    · exact ⟨top :: pre, c, by simp, by simp⟩
  have hcut : ∀ l'', top :: (l ++ l'') = pre ++ c :: l'' := by
    intro l''
    rw [← List.cons_append, hpre, List.append_assoc]
    rfl
  have hchain : Chain (fun p => (h p).nextInBin) (some top) (top :: (l ++ e :: l')) := ⟨rfl, hin⟩
  rw [hcut] at hchain hnodup
  rw [hlast]
  obtain ⟨_, hsuf, hdisj⟩ := List.nodup_append.mp hnodup
  have hkeep : ∀ p, p ≠ c →
      (h.setNextInBin c (h e).nextInBin p).nextInBin = (h p).nextInBin := by
    intro p hp
    rw [Heap.setNextInBin, Heap.set_of_ne h _ hp]
  have hnew : Chain (fun p => (h.setNextInBin c (h e).nextInBin p).nextInBin) (some top)
      (pre ++ c :: l') := by
    refine hchain.splice (fun p hp => hkeep p (hdisj p hp c List.mem_cons_self)) ?_
    show Chain _ (h.setNextInBin c (h e).nextInBin c).nextInBin _
    rw [Heap.setNextInBin, Heap.set_self]
    have hchain' : Chain (fun p => (h p).nextInBin) (some top) ((pre ++ [c]) ++ e :: l') := by
      simpa using hchain
    refine hchain'.behind.congr fun p hp => hkeep p ?_
    rintro rfl
    exact (List.nodup_cons.mp hsuf).1 (List.mem_cons_of_mem e hp)
  rw [← hcut] at hnew
  exact hnew.2

/-- The top of the first bin leaves: the bin behind it, or the event below it, is next. -/
theorem removeItem_top {rest : List Ptr} (hr : Represents h o (⟨e, rest⟩ :: bins)) (rounds : ℕ) :
    ∃ h' top, removeItem h rounds e e = .ok (h', top) ∧
      Represents h' top ((⟨e, rest⟩ : Bin).without e ++ bins) ∧ LinksOnly h h' ∧
      ∀ p ∉ e :: rest, h' p = h p := by
  have hbehind := hr.tail
  have hnodup := hr.nodup
  have hin := hr.inBin _ List.mem_cons_self
  have hsame := hr.sameKey _ List.mem_cons_self
  have hlt := (List.pairwise_cons.mp hr.sorted).1
  dsimp only at *
  unfold removeItem Bin.without
  cases rest with
  | nil =>
    have hnone : (h e).nextInBin = none := hin
    simp only [if_true, hnone]
    exact ⟨h, _, rfl, hbehind, fun p => rfl, fun p _ => rfl⟩
  | cons r rest =>
    obtain ⟨hnext, hin⟩ := hin
    simp only [if_true, hnext]
    have hsame' := setNextBin_same h r (h e).nextBin
    have hkey : ∀ p, (h.setNextBin r (h e).nextBin p).key = (h p).key := fun p => (hsame' p).2
    have hrmem := hsame r List.mem_cons_self
    have hfresh : r ∉ order bins := by
      have hdisj := (List.nodup_cons.mp (List.nodup_cons.mp hnodup).2).1
      exact fun hcon => hdisj (List.mem_append_right rest hcon)
    refine ⟨_, _, rfl, ?_, linksOnly_set rfl, ?_⟩
    · have hold := hbehind.congr (h.setNextBin r (h e).nextBin) (fun c hc => by
        have hne : c.top ≠ r := fun heq => hfresh (heq ▸ top_mem_order hc)
        rw [setNextBin_of_ne h _ hne]) fun p _ => hsame' p
      refine hold.cons ⟨r, rest⟩ (nextBin_setNextBin h r _) ?_ (List.nodup_cons.mp hnodup).2
        ?_ ?_
      · rw [(hsame' r).1]
        exact hin.congr fun p _ => (hsame' p).1
      · intro p hp
        rw [hkey, hkey, hrmem]
        exact hsame p (List.mem_cons_of_mem r hp)
      · intro c hc
        rw [hkey, hkey, hrmem]
        exact hlt c hc
    · intro p hp
      apply setNextBin_of_ne
      rintro rfl
      exact hp (List.mem_cons_of_mem e List.mem_cons_self)

/-- An event below the top of the first bin leaves. -/
theorem removeItem_below {top : Ptr} {rest : List Ptr} (hr : Represents h o (⟨top, rest⟩ :: bins))
    (htop : e ≠ top) (hmem : e ∈ rest) (hrounds : rest.length ≤ rounds) :
    ∃ h' top', removeItem h rounds e top = .ok (h', top') ∧
      Represents h' top' ((⟨top, rest⟩ : Bin).without e ++ bins) ∧ LinksOnly h h' ∧
      ∀ p ∉ top :: rest, h' p = h p := by
  have hbehind := hr.tail
  have hnodup := hr.nodup
  have hin := hr.inBin _ List.mem_cons_self
  have hsame := hr.sameKey _ List.mem_cons_self
  have hlt := (List.pairwise_cons.mp hr.sorted).1
  dsimp only at *
  obtain ⟨l, l', rfl⟩ := List.append_of_mem hmem
  have hnd : (top :: (l ++ e :: l')).Nodup := by
    rw [order_cons, ← List.cons_append] at hnodup
    exact (List.nodup_append.mp hnodup).1
  obtain ⟨_, hnd', hdisj⟩ := List.nodup_append.mp (List.nodup_cons.mp hnd).2
  have hl : ∀ p ∈ l, p ≠ e := fun p hp => hdisj p hp e List.mem_cons_self
  have hl' : ∀ p ∈ l', p ≠ e := by
    rintro p hp rfl
    exact (List.nodup_cons.mp hnd').1 hp
  have hfilter : (l ++ e :: l').filter (· ≠ e) = l ++ l' := by
    rw [List.filter_append, List.filter_cons_of_neg (by simp),
      List.filter_eq_self.mpr (by simpa using hl), List.filter_eq_self.mpr (by simpa using hl')]
  have htake : (l ++ e :: l').takeWhile (· ≠ e) = l := by
    rw [List.takeWhile_append_of_pos (by simpa using hl), List.takeWhile_cons_of_neg (by simp),
      List.append_nil]
  have hdrop : (l ++ e :: l').dropWhile (· ≠ e) = e :: l' := by
    rw [List.dropWhile_append_of_pos (by simpa using hl), List.dropWhile_cons_of_neg (by simp)]
  set c := l.getLastD top
  have hcmem : c ∈ top :: l := List.getLastD_mem_cons
  have hsame' := setNextInBin_same h c (h e).nextInBin
  have hkeep : ∀ p ∉ (⟨top, l ++ e :: l'⟩ : Bin).events,
      h.setNextInBin c (h e).nextInBin p = h p := by
    intro p hp
    apply Heap.set_of_ne
    rintro rfl
    apply hp
    rcases List.mem_cons.mp hcmem with heq | hmem
    · exact heq ▸ List.mem_cons_self
    · exact List.mem_cons_of_mem top (List.mem_append_left _ hmem)
  refine ⟨h.setNextInBin c (h e).nextInBin, some top, ?_, ?_, linksOnly_set rfl, hkeep⟩
  · unfold removeItem
    rw [if_neg htop, advance_eq hin hrounds, htake, hdrop]
    rfl
  · unfold Bin.without
    rw [if_neg htop, hfilter, List.singleton_append]
    have hdisj' : ∀ p ∈ order bins, p ∉ (⟨top, l ++ e :: l'⟩ : Bin).events := by
      intro p hp hcon
      have happ : ((⟨top, l ++ e :: l'⟩ : Bin).events ++ order bins).Nodup := hnodup
      exact (List.nodup_append.mp happ).2.2 p hcon p hp rfl
    have hold := hbehind.congr (h.setNextInBin c (h e).nextInBin)
      (fun d _ => (hsame' d.top).1) (fun p hp => by
        rw [hkeep p (hdisj' p hp)]
        exact ⟨rfl, rfl⟩)
    refine hold.cons ⟨top, l ++ l'⟩ (hsame' top).1 (chain_unlink hin hnd) ?_ ?_ ?_
    · refine hnodup.sublist ?_
      show List.Sublist (top :: ((l ++ l') ++ order bins)) (top :: ((l ++ e :: l') ++ order bins))
      simp
    · intro p hp
      rw [(hsame' p).2, (hsame' top).2]
      apply hsame
      rcases List.mem_append.mp hp with hp | hp
      · exact List.mem_append_left _ hp
      · exact List.mem_append_right _ (List.mem_cons_of_mem e hp)
    · intro d hd
      rw [(hsame' top).2, (hsame' d.top).2]
      exact hlt d hd

/-- **`removeItem` takes the event out of the first bin**, wherever it is in it. -/
theorem removeItem_represents (hr : Represents h o (b :: bins)) (he : e ∈ b.events)
    (hrounds : b.rest.length ≤ rounds) :
    ∃ h' top, removeItem h rounds e b.top = .ok (h', top) ∧
      Represents h' top (b.without e ++ bins) ∧ LinksOnly h h' ∧
      ∀ p ∉ b.events, h' p = h p := by
  obtain ⟨top, rest⟩ := b
  by_cases htop : e = top
  · subst htop
    exact removeItem_top hr rounds
  · exact removeItem_below hr htop ((List.mem_cons.mp he).resolve_left htop) hrounds

/-- An event that is not before the bins, but in one of them, is in the first one. -/
theorem Represents.mem_first (hr : Represents h o bins) (he : e ∈ order bins)
    (hle : ∀ b ∈ bins, (h e).key ≤ (h b.top).key) :
    ∃ b suf, bins = b :: suf ∧ e ∈ b.events := by
  cases bins with
  | nil => cases he
  | cons b suf =>
    refine ⟨b, suf, rfl, ?_⟩
    obtain ⟨c, hc, hec⟩ := mem_order.mp he
    rcases List.mem_cons.mp hc with rfl | hsuf
    · exact List.mem_cons.mpr hec
    · -- a later bin has a larger key than the first one
      have hkey := hr.key_of_mem hc (List.mem_cons.mpr hec)
      have hlt := (List.pairwise_cons.mp hr.sorted).1 c hsuf
      rw [← hkey] at hlt
      exact absurd (hle b List.mem_cons_self) (not_le.mpr hlt)

theorem length_rest_le (hb : b ∈ bins) :
    b.rest.length ≤ (order bins).length := by
  obtain ⟨l, l', rfl⟩ := List.append_of_mem hb
  rw [order_append, order_cons, List.length_append, List.length_cons, List.length_append]
  omega

theorem length_le_order (bins : List Bin) : bins.length ≤ (order bins).length := by
  induction bins with
  | nil => exact Nat.le_refl 0
  | cons b bins ih =>
    rw [order_cons, List.length_cons, List.length_cons, List.length_append]
    omega

/-- **`remove` never fails for an event of this queue**, and takes out exactly this
event. -/
theorem remove_represents {q : EventQueue} (hr : Represents q.heap q.head bins)
    (he : e ∈ order bins) (hqueue : (q.heap e).queue = some q.id)
    (hrounds : (order bins).length ≤ rounds) :
    ∃ h' head' bins', q.remove rounds e = .ok { q with heap := h', head := head' } ∧
      Represents h' head' bins' ∧ LinksOnly q.heap h' ∧
      order bins' = (order bins).filter (· ≠ e) := by
  cases bins with
  | nil => cases he
  | cons b bins =>
    have hhead : q.head = some b.top := hr.tops.1
    by_cases hb : e ∈ b.events
    · -- in the first bin
      have hkey := hr.key_of_mem List.mem_cons_self hb
      obtain ⟨h', top, hrem, hr', hlinks, -⟩ := removeItem_represents hr hb
        ((length_rest_le List.mem_cons_self).trans hrounds)
      refine ⟨h', top, _, ?_, hr', hlinks, order_remove [] hr.nodup hb⟩
      unfold EventQueue.remove
      rw [hhead]
      dsimp only
      rw [if_neg (not_not.mpr hqueue), if_pos (Event.eqv_iff.mpr hkey.symm), hrem]
      rfl
    · -- in a later bin, so behind the first one
      have hlt : (q.heap b.top).key < (q.heap e).key := by
        obtain ⟨c, hc, hec⟩ := mem_order.mp he
        rw [hr.key_of_mem hc (List.mem_cons.mpr hec)]
        rcases List.mem_cons.mp hc with rfl | hc
        · exact absurd (List.mem_cons.mpr hec) hb
        · exact (List.pairwise_cons.mp hr.sorted).1 c hc
      have hlength := length_le_order (b :: bins)
      obtain ⟨pre, c, suf, hsplit, hwalk, hbefore, hafter⟩ := findBin_split hr
        (show bins.length ≤ rounds by rw [List.length_cons] at hlength; omega) hlt
      rw [hsplit] at hr he hrounds ⊢
      have hassoc : ∀ l, pre ++ c :: l = (pre ++ [c]) ++ l := by simp
      have hnodup := hr.nodup
      rw [hassoc, order_append] at hnodup
      -- the bins in front have smaller keys
      have hesuf : e ∈ order suf := by
        obtain ⟨d, hd, hed⟩ := mem_order.mp he
        have hkey := hr.key_of_mem hd (List.mem_cons.mpr hed)
        rw [hassoc] at hd
        rcases List.mem_append.mp hd with hd | hd
        · exact absurd hkey (hbefore d hd).ne'
        · exact mem_order.mpr ⟨d, hd, hed⟩
      obtain ⟨d, suf, rfl, hed⟩ := hr.behind.mem_first hesuf hafter
      have hkey := hr.behind.key_of_mem List.mem_cons_self hed
      have hdmem : d ∈ pre ++ c :: d :: suf := by simp
      obtain ⟨h', top, hrem, hr', hlinks, hframe⟩ := removeItem_represents hr.behind hed
        ((length_rest_le hdmem).trans hrounds)
      have hsub : ∀ p ∈ order (d.without e ++ suf), p ∈ order (d :: suf) := by
        intro p hp
        have horder := order_remove [] hr.behind.nodup hed
        rw [List.nil_append, List.nil_append] at horder
        rw [horder] at hp
        exact (List.mem_filter.mp hp).1
      refine ⟨h'.setNextBin c.top top, q.head, pre ++ c :: (d.without e ++ suf), ?_,
        hr.splice hr' ?_ ?_ ?_, hlinks.trans (linksOnly_set rfl), ?_⟩
      · unfold EventQueue.remove
        rw [hhead]
        dsimp only
        rw [if_neg (not_not.mpr hqueue), if_neg (fun h => hlt.ne (Event.eqv_iff.mp h)), hwalk]
        show (if (q.heap d.top).eqv (q.heap e) = true then _ else _) = _
        rw [if_pos (Event.eqv_iff.mpr hkey.symm), hrem]
        rfl
      · intro p hp
        apply hframe
        intro hcon
        exact (List.nodup_append.mp hnodup).2.2 p hp p (List.mem_append_left _ hcon) rfl
      · intro p hp hcon
        exact (List.nodup_append.mp hnodup).2.2 p hp p (hsub p hcon) rfl
      · intro x hx y hy
        obtain ⟨z, hz, hyz⟩ := mem_order.mp (hsub _ (top_mem_order hy))
        rw [hlinks.key, hr.behind.key_of_mem hz (List.mem_cons.mpr hyz)]
        exact (hbefore x hx).trans_le (hafter z hz)
      · rw [hassoc, order_remove _ (by rw [← hassoc]; exact hr.nodup) hed, ← hassoc]

/-- **The head leaves**, as the first part of `serviceOne` takes it out. -/
theorem popHead_represents {q : EventQueue} {l : List Ptr} (hr : Represents q.heap q.head bins)
    (horder : order bins = e :: l) :
    ∃ h' head' bins', q.popHead e = { q with heap := h', head := head' } ∧
      Represents h' head' bins' ∧
      LinksOnly (q.heap.set e { q.heap e with scheduled := false }) h' ∧ order bins' = l := by
  cases bins with
  | nil => cases horder
  | cons b bins =>
    obtain ⟨top, rest⟩ := b
    rw [order_cons] at horder
    obtain ⟨rfl, hl⟩ := List.cons.inj horder
    have hnodup := hr.nodup
    have hset := hr.set top { q.heap top with scheduled := false } fun _ => ⟨rfl, rfl, rfl⟩
    -- the same assignments as in `removeItem`
    obtain ⟨h', head', hrem, hr', hlinks, -⟩ := removeItem_top hset 0
    refine ⟨h', head', _, ?_, hr', hlinks, ?_⟩
    · unfold EventQueue.popHead EventQueue.setEvent
      unfold removeItem at hrem
      rw [if_pos rfl] at hrem
      dsimp only
      split at hrem
      · rename_i hnext
        rw [hnext]
        obtain ⟨rfl, rfl⟩ := Prod.mk.inj (Except.ok.inj hrem)
        rfl
      · rename_i next hnext
        rw [hnext]
        obtain ⟨rfl, rfl⟩ := Prod.mk.inj (Except.ok.inj hrem)
        rfl
    · have hremove := order_remove [] hnodup List.mem_cons_self
      rw [List.nil_append, List.nil_append] at hremove
      rw [hremove, order_cons, List.filter_cons_of_neg (by simp), ← hl]
      apply List.filter_eq_self.mpr
      intro p hp
      have hne : p ≠ top := fun heq => (List.nodup_cons.mp hnodup).1 (heq ▸ hp)
      exact decide_eq_true hne

end Gem5.Sim
