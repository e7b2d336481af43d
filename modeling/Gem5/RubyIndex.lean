/-
# The index of a Ruby cache

What `m_tag_index` records against the entries in the sets.  In a state that satisfies `Indexed`, an
address in the index has its entry at the recorded way, and every entry that is not `NotPresent` is
in the index (an entry that is `NotPresent` need not be).  Everything the interface promises follows
(`Indexed.consistent`).  Two actions break the index, and break the promises with it (`Clean`): an
allocation over a `NotPresent` entry whose address the index still has, and the revival of an entry
that the index has lost.
-/
import Gem5.RubyCache

open Runs

namespace Gem5.Ruby

namespace CacheMemory

/-! ## Entries -/

theorem setEntry_cache (c : CacheMemory) (set way : ℕ) (entry : Option AbstractCacheEntry)
    (set' way' : ℕ) : (c.setEntry set way entry).m_cache set' way' =
      if set' = set ∧ way' = way then entry else c.m_cache set' way' := by
  unfold setEntry
  dsimp only
  by_cases hset : set' = set
  · subst hset
    rw [Function.update_self]
    by_cases hway : way' = way
    · subst hway
      rw [Function.update_self, if_pos ⟨rfl, rfl⟩]
    · rw [Function.update_of_ne hway, if_neg fun h => hway h.2]
  · rw [Function.update_of_ne hset, if_neg fun h => hset h.1]

variable {c : CacheMemory} {set way : ℕ} {e : AbstractCacheEntry} {a : BitVec 64}

/-- An entry after an assignment. -/
theorem of_setEntry {set' way' : ℕ} {entry : Option AbstractCacheEntry}
    (h : (c.setEntry set way entry).m_cache set' way' = some e) :
    ((set' = set ∧ way' = way) ∧ entry = some e) ∨
      (¬ (set' = set ∧ way' = way) ∧ c.m_cache set' way' = some e) := by
  rw [setEntry_cache] at h
  split_ifs at h with hpos
  · exact .inl ⟨hpos, h⟩
  · exact .inr ⟨hpos, h⟩

theorem setEntry_of_ne {set' way' : ℕ} (entry : Option AbstractCacheEntry)
    (h : ¬ (set' = set ∧ way' = way)) :
    (c.setEntry set way entry).m_cache set' way' = c.m_cache set' way' := by
  rw [setEntry_cache, if_neg h]

theorem setIndex_index (c : CacheMemory) (a b : BitVec 64) (way : Option ℕ) :
    (c.setIndex a way).m_tag_index b = if b = a then way else c.m_tag_index b :=
  Function.update_apply _ _ _ _

/-- The entry that `lookup` finds by the index. -/
theorem lookup_eq (ha : c.IsLineAddress a) :
    c.lookup a = match c.m_tag_index a with
      | none => .ok none
      | some way => match c.m_cache (c.setOf a) way with
        | none => .error .nullEntry
        | some e => .ok (if e.m_Permission ≠ .NotPresent then some e else none) := by
  unfold lookup addressToCacheSet findTagInSet
  rw [require_ok (decide_eq_true ha)]
  cases hindex : c.m_tag_index a with
  | none => rfl
  | some way =>
    cases hentry : c.m_cache (c.setOf a) way with
    | none =>
      dsimp only [bind, Except.bind, orFail, pure, Except.pure]
      rw [hentry]
    | some e =>
      dsimp only [bind, Except.bind, orFail, pure, Except.pure]
      rw [hentry]
      dsimp only
      by_cases hperm : e.m_Permission ≠ .NotPresent
      · rw [if_pos hperm, if_pos hperm]
        exact congrArg Except.ok hentry
      · rw [if_neg hperm, if_neg hperm]

theorem lookup_of_index (ha : c.IsLineAddress a) (hindex : c.m_tag_index a = some way)
    (he : c.m_cache (c.setOf a) way = some e) (hperm : e.m_Permission ≠ .NotPresent) :
    c.lookup a = .ok (some e) := by
  rw [lookup_eq ha, hindex]
  dsimp only
  rw [he]
  dsimp only
  rw [if_pos hperm]

/-- What `cacheAvail` finds. -/
theorem cacheAvail_eq (ha : c.IsLineAddress a) :
    ∃ b, c.cacheAvail a = .ok b ∧ (b = true ↔ ∃ way, way < c.m_cache_assoc ∧
      ∀ e, c.m_cache (c.setOf a) way = some e →
        e.m_Address = a ∨ e.m_Permission = .NotPresent) := by
  unfold cacheAvail addressToCacheSet
  rw [require_ok (decide_eq_true ha)]
  refine ⟨_, rfl, ?_⟩
  rw [List.any_eq_true]
  refine exists_congr fun way => and_congr List.mem_range ?_
  cases c.m_cache (c.setOf a) way with
  | none => exact ⟨fun _ e he => (nomatch he), fun _ => rfl⟩
  | some e =>
    dsimp only
    rw [Bool.or_eq_true, decide_eq_true_eq, decide_eq_true_eq]
    exact ⟨fun h e' he => Option.some.inj he ▸ h, fun h => h e rfl⟩

/-- The slot that `allocate` takes. -/
theorem openSlot_some (h : c.openSlot set = some way) :
    way < c.m_cache_assoc ∧
      ∀ e, c.m_cache set way = some e → e.m_Permission = .NotPresent := by
  unfold openSlot at h
  have hmem := List.mem_of_find?_eq_some h
  have hopen := List.find?_some h
  refine ⟨List.mem_range.mp hmem, fun e he => ?_⟩
  rw [he] at hopen
  exact of_decide_eq_true hopen

theorem openSlot_isSome (hway : way < c.m_cache_assoc)
    (h : ∀ e, c.m_cache set way = some e → e.m_Permission = .NotPresent) :
    ∃ i, c.openSlot set = some i := by
  unfold openSlot
  refine Option.isSome_iff_exists.mp (List.find?_isSome.mpr ⟨way, List.mem_range.mpr hway, ?_⟩)
  cases hentry : c.m_cache set way with
  | none => rfl
  | some e => exact decide_eq_true (h e hentry)

/-! ## The index -/

/-- **The index and the sets agree.** -/
structure Indexed (c : CacheMemory) : Prop where
  sets : 2 ^ c.m_cache_num_set_bits ≤ c.m_cache_num_sets
  ways : 0 < c.m_cache_assoc
  indexed : ∀ a way, c.m_tag_index a = some way →
    ∃ e, c.m_cache (c.setOf a) way = some e ∧ e.m_Address = a
  placed : ∀ set way e, c.m_cache set way = some e → way < c.m_cache_assoc ∧
    c.IsLineAddress e.m_Address ∧ c.setOf e.m_Address = set ∧ e._set = set ∧ e._way = way
  present : ∀ set way e, c.m_cache set way = some e → e.m_Permission ≠ .NotPresent →
    c.m_tag_index e.m_Address = some way

/-- A line that is present. -/
theorem Indexed.lookup_some (h : Indexed c) (he : c.m_cache set way = some e)
    (hperm : e.m_Permission ≠ .NotPresent) : c.lookup e.m_Address = .ok (some e) := by
  obtain ⟨-, hline, hset, -, -⟩ := h.placed set way e he
  exact lookup_of_index hline (h.present set way e he hperm) (hset.symm ▸ he) hperm

/-- A lookup finds the line or nothing. -/
theorem Indexed.lookup_ok (h : Indexed c) (ha : c.IsLineAddress a) :
    ∃ r, c.lookup a = .ok r ∧ ∀ e, r = some e →
      e.m_Address = a ∧ e.m_Permission ≠ .NotPresent ∧
        c.m_cache (c.setOf a) e._way = some e := by
  rw [lookup_eq ha]
  cases hindex : c.m_tag_index a with
  | none => exact ⟨none, rfl, nofun⟩
  | some way =>
    obtain ⟨e, he, haddr⟩ := h.indexed a way hindex
    dsimp only
    rw [he]
    refine ⟨_, rfl, fun e' he' => ?_⟩
    split_ifs at he' with hperm
    obtain rfl := Option.some.inj he'
    obtain ⟨-, -, -, -, hway⟩ := h.placed _ way e he
    exact ⟨haddr, hperm, hway.symm ▸ he⟩

/-! ## The interface -/

/-- A line that is present. -/
def Present (c : CacheMemory) (a : BitVec 64) : Prop := ∃ e, c.lookup a = .ok (some e)

/-- **What the interface promises**, for all line addresses and all entries in the cache. -/
structure Consistent (c : CacheMemory) : Prop where
  lookup : ∀ a, c.IsLineAddress a →
    ∃ r, c.lookup a = .ok r ∧ ∀ e, r = some e → e.m_Address = a
  entries : ∀ set way e, c.m_cache set way = some e → e.m_Permission ≠ .NotPresent →
    c.lookup e.m_Address = .ok (some e) ∧ c.addressToCacheSet e.m_Address = .ok set ∧
      set < c.m_cache_num_sets ∧ way < c.m_cache_assoc ∧ e._set = set ∧ e._way = way
  unique : ∀ set way e set' way' e', c.m_cache set way = some e →
    c.m_cache set' way' = some e' → e.m_Permission ≠ .NotPresent →
      e'.m_Permission ≠ .NotPresent → e.m_Address = e'.m_Address → set = set' ∧ way = way'
  avail : ∀ a, c.IsLineAddress a → ∃ b, c.cacheAvail a = .ok b ∧ (b = true ↔ c.Present a ∨
    ∃ way, way < c.m_cache_assoc ∧
      ∀ e, c.m_cache (c.setOf a) way = some e → e.m_Permission = .NotPresent)
  probe : ∀ a, c.IsLineAddress a → c.cacheAvail a = .ok false →
    ∀ getVictim : List AbstractCacheEntry → AbstractCacheEntry,
      (∀ candidates ≠ [], getVictim candidates ∈ candidates) →
      ∃ v, c.cacheProbe getVictim a = .ok v ∧ c.Present v ∧ c.setOf v = c.setOf a ∧
        ∃ c', c.deallocate v = .ok c' ∧ c'.cacheAvail a = .ok true

/-- Taking a line away leaves an empty way. -/
theorem deallocate_ok (he : c.lookup a = .ok (some e)) :
    c.deallocate a = .ok ((c.setEntry e._set e._way none).setIndex a none) := by
  unfold deallocate
  rw [he]
  rfl

theorem Indexed.avail (h : Indexed c) (ha : c.IsLineAddress a) :
    ∃ b, c.cacheAvail a = .ok b ∧ (b = true ↔ c.Present a ∨ ∃ way, way < c.m_cache_assoc ∧
      ∀ e, c.m_cache (c.setOf a) way = some e → e.m_Permission = .NotPresent) := by
  obtain ⟨b, hb, hiff⟩ := cacheAvail_eq ha
  refine ⟨b, hb, hiff.trans ⟨?_, ?_⟩⟩
  · rintro ⟨way, hway, hopen⟩
    by_cases hall : ∀ e, c.m_cache (c.setOf a) way = some e → e.m_Permission = .NotPresent
    · exact .inr ⟨way, hway, hall⟩
    · rw [not_forall] at hall
      obtain ⟨e, hall⟩ := hall
      rw [Classical.not_imp] at hall
      obtain ⟨he, hperm⟩ := hall
      have haddr := (hopen e he).resolve_right hperm
      exact .inl ⟨e, haddr ▸ h.lookup_some he hperm⟩
  · rintro (⟨e, he⟩ | ⟨way, hway, hopen⟩)
    · obtain ⟨r, hr, hfound⟩ := h.lookup_ok ha
      obtain rfl := Except.ok.inj (hr.symm.trans he)
      obtain ⟨haddr, -, hentry⟩ := hfound e rfl
      refine ⟨e._way, (h.placed _ _ e hentry).1, fun e' he' => .inl ?_⟩
      obtain rfl := Option.some.inj (hentry.symm.trans he')
      exact haddr
    · exact ⟨way, hway, fun e he => .inr (hopen e he)⟩

/-- The candidates, when there is an entry in every way. -/
theorem candidates_ok {f : ℕ → Option AbstractCacheEntry} {l : List ℕ}
    (h : ∀ i ∈ l, ∃ e, f i = some e) :
    ∃ es, l.mapM (fun i => orFail CacheFail.nullEntry (f i)) = .ok es ∧ es.length = l.length ∧
      ∀ e ∈ es, ∃ i ∈ l, f i = some e := by
  induction l with
  | nil => exact ⟨[], rfl, rfl, nofun⟩
  | cons i l ih =>
    obtain ⟨e, he⟩ := h i List.mem_cons_self
    obtain ⟨es, hes, hlen, hmem⟩ := ih fun j hj => h j (List.mem_cons_of_mem i hj)
    refine ⟨e :: es, ?_, congrArg (· + 1) hlen, fun e' he' => ?_⟩
    · rw [List.mapM_cons, he, hes]
      rfl
    · rcases List.mem_cons.mp he' with rfl | he'
      · exact ⟨i, List.mem_cons_self, he⟩
      · obtain ⟨j, hj, hentry⟩ := hmem e' he'
        exact ⟨j, List.mem_cons_of_mem i hj, hentry⟩

/-- **The victim.**  When no way is available, all of them hold lines that are present. -/
theorem Indexed.probe (h : Indexed c) (ha : c.IsLineAddress a) (hfull : c.cacheAvail a = .ok false)
    {getVictim : List AbstractCacheEntry → AbstractCacheEntry}
    (hvictim : ∀ candidates ≠ [], getVictim candidates ∈ candidates) :
    ∃ v, c.cacheProbe getVictim a = .ok v ∧ c.Present v ∧ c.setOf v = c.setOf a ∧
      ∃ c', c.deallocate v = .ok c' ∧ c'.cacheAvail a = .ok true := by
  obtain ⟨b, hb, hiff⟩ := h.avail ha
  obtain rfl := Except.ok.inj (hb.symm.trans hfull)
  have hclosed : ∀ way, way < c.m_cache_assoc →
      ∃ e, c.m_cache (c.setOf a) way = some e ∧ e.m_Permission ≠ .NotPresent := by
    intro way hway
    by_contra hno
    refine Bool.false_ne_true (hiff.mpr (.inr ⟨way, hway, fun e he => ?_⟩))
    by_contra hperm
    exact hno ⟨e, he, hperm⟩
  have hways := h.ways
  obtain ⟨candidates, hcandidates, hlen, hmem⟩ := candidates_ok (f := c.m_cache (c.setOf a))
    (l := List.range c.m_cache_assoc) fun way hway => by
      obtain ⟨e, he, -⟩ := hclosed way (List.mem_range.mp hway)
      exact ⟨e, he⟩
  have hne : candidates ≠ [] := by
    rintro rfl
    rw [List.length_range] at hlen
    exact absurd hlen hways.ne
  obtain ⟨way, hway, he⟩ := hmem _ (hvictim candidates hne)
  obtain ⟨e, hchoice⟩ : ∃ e, getVictim candidates = e := ⟨_, rfl⟩
  rw [hchoice] at he
  obtain ⟨e', he', hperm⟩ := hclosed way (List.mem_range.mp hway)
  obtain rfl := Option.some.inj (he.symm.trans he')
  obtain ⟨-, -, hset, hset', hway'⟩ := h.placed _ way e he
  have hlookup := h.lookup_some he hperm
  refine ⟨e.m_Address, ?_, ⟨e, hlookup⟩, hset, _, deallocate_ok hlookup, ?_⟩
  · unfold cacheProbe addressToCacheSet
    rw [hfull, require_ok (decide_eq_true ha)]
    dsimp only [bind, Except.bind, pure, Except.pure]
    rw [require_ok Bool.not_false, hcandidates]
    dsimp only
    rw [hchoice, hway', he]
    rfl
  · obtain ⟨b, hb, hiff⟩ := cacheAvail_eq
      (c := (c.setEntry e._set e._way none).setIndex e.m_Address none) ha
    have hopen : b = true := by
      refine hiff.mpr ⟨way, List.mem_range.mp hway, fun e' he' => ?_⟩
      have hnone : (c.setEntry e._set e._way none).m_cache (c.setOf a) way = none := by
        rw [setEntry_cache, if_pos ⟨hset'.symm, hway'.symm⟩]
      exact nomatch hnone.symm.trans he'
    rw [hb, hopen]

/-- **A cache whose index agrees with its sets** keeps the promises of its interface. -/
theorem Indexed.consistent (h : Indexed c) : Consistent c where
  lookup := fun a ha => by
    obtain ⟨r, hr, hfound⟩ := h.lookup_ok ha
    exact ⟨r, hr, fun e he => (hfound e he).1⟩
  entries := fun set way e he hperm => by
    obtain ⟨hway, hline, hset, hset', hway'⟩ := h.placed set way e he
    refine ⟨h.lookup_some he hperm, ?_, ?_, hway, hset', hway'⟩
    · unfold addressToCacheSet
      rw [require_ok (decide_eq_true hline), hset]
      rfl
    · rw [← hset]
      exact (Nat.mod_lt _ (Nat.two_pow_pos _)).trans_le h.sets
  unique := fun set way e set' way' e' he he' hperm hperm' haddr => by
    obtain ⟨-, -, hset, -, -⟩ := h.placed set way e he
    obtain ⟨-, -, hset', -, -⟩ := h.placed set' way' e' he'
    have hway := h.present set way e he hperm
    rw [haddr] at hway hset
    exact ⟨hset.symm.trans hset',
      Option.some.inj (hway.symm.trans (h.present set' way' e' he' hperm'))⟩
  avail := fun a ha => h.avail ha
  probe := fun a ha hfull getVictim hvictim => h.probe ha hfull hvictim

/-! ## Steps -/

/-- The preconditions of an action. -/
def Possible (c : CacheMemory) : Action → Prop
  | .allocate a => c.IsLineAddress a ∧ c.isTagPresent a = .ok false ∧ c.cacheAvail a = .ok true
  | .deallocate a => c.IsLineAddress a ∧ c.Present a
  | .lookup a => c.IsLineAddress a
  | .changePermission set way _ => c.m_cache set way ≠ none

/-- **The condition on an action.**  An allocation does not take the place of an entry that the
index still has for another address, and only entries that the index has get a permission other than
`NotPresent`. -/
def Clean (c : CacheMemory) : Action → Prop
  | .allocate a => ∀ way ∈ c.openSlot (c.setOf a), ∀ e ∈ c.m_cache (c.setOf a) way,
      e.m_Address = a ∨ c.m_tag_index e.m_Address ≠ some way
  | .changePermission set way new_perm => ∀ e ∈ c.m_cache set way,
      new_perm = .NotPresent ∨ c.m_tag_index e.m_Address = some way
  | _ => True

/-- The state after an allocation. -/
theorem Indexed.allocate_ok (h : Indexed c) (hp : Possible c (.allocate a)) :
    ¬ c.Present a ∧ ∃ way, c.openSlot (c.setOf a) = some way ∧ c.allocate a =
      .ok ((c.setEntry (c.setOf a) way (some ⟨a, .Invalid, c.setOf a, way⟩)).setIndex a
        (some way)) := by
  obtain ⟨ha, htag, havail⟩ := hp
  have habsent : ¬ c.Present a := by
    rintro ⟨e, he⟩
    unfold isTagPresent at htag
    rw [he] at htag
    exact Bool.noConfusion (Except.ok.inj htag)
  obtain ⟨b, hb, hiff⟩ := h.avail ha
  obtain rfl := Except.ok.inj (hb.symm.trans havail)
  obtain ⟨way', hway', hopen⟩ := (hiff.mp rfl).resolve_left habsent
  obtain ⟨way, hway⟩ := openSlot_isSome hway' hopen
  refine ⟨habsent, way, hway, ?_⟩
  unfold allocate addressToCacheSet
  rw [require_ok (decide_eq_true ha), htag, havail]
  dsimp only [bind, Except.bind, pure, Except.pure]
  rw [require_ok Bool.not_false, require_ok rfl]
  dsimp only
  rw [hway]
  rfl

theorem Indexed.deallocate (h : Indexed c) (hp : Possible c (.deallocate a)) :
    ∃ c', c.deallocate a = .ok c' ∧ Indexed c' := by
  obtain ⟨ha, e, he⟩ := hp
  obtain ⟨r, hr, hfound⟩ := h.lookup_ok ha
  obtain rfl := Except.ok.inj (hr.symm.trans he)
  obtain ⟨haddr, hperm, hentry⟩ := hfound e rfl
  obtain ⟨-, -, -, hset, -⟩ := h.placed _ _ e hentry
  have hindex := h.present _ _ e hentry hperm
  rw [haddr] at hindex
  refine ⟨_, deallocate_ok he, h.sets, h.ways, fun b way hb => ?_, fun set way e' he' => ?_,
    fun set way e' he' hperm' => ?_⟩
  · rw [setIndex_index] at hb
    split_ifs at hb with hne
    obtain ⟨e', he', haddr'⟩ := h.indexed b way hb
    refine ⟨e', ?_, haddr'⟩
    rw [← he']
    refine setEntry_of_ne _ ?_
    rintro ⟨hset', rfl⟩
    rw [show c.setOf b = c.setOf a from hset'.trans hset] at he'
    obtain rfl := Option.some.inj (hentry.symm.trans he')
    exact hne (haddr'.symm.trans haddr)
  · rcases of_setEntry he' with ⟨-, hnone⟩ | ⟨-, hold⟩
    · exact nomatch hnone
    · exact h.placed set way e' hold
  · rcases of_setEntry he' with ⟨-, hnone⟩ | ⟨hpos, hold⟩
    · exact nomatch hnone
    · have hway := h.present set way e' hold hperm'
      refine (setIndex_index _ _ _ _).trans ((if_neg fun heq => hpos ?_).trans hway)
      rw [heq] at hway
      refine ⟨?_, Option.some.inj (hway.symm.trans hindex)⟩
      rw [hset, ← heq]
      exact (h.placed set way e' hold).2.2.1.symm

theorem Indexed.allocate (h : Indexed c) (hp : Possible c (.allocate a))
    (hclean : Clean c (.allocate a)) :
    ∃ c', c.allocate a = .ok c' ∧ Indexed c' := by
  obtain ⟨habsent, i, hopen, hallocate⟩ := h.allocate_ok hp
  have hslot := hclean i hopen
  refine ⟨_, hallocate, h.sets, h.ways, fun b way hb => ?_, fun set way e he => ?_,
    fun set way e he hperm => ?_⟩
  · rw [setIndex_index] at hb
    split_ifs at hb with hba
    · subst hba
      obtain rfl := Option.some.inj hb
      exact ⟨_, (setEntry_cache c _ _ _ _ _).trans (if_pos ⟨rfl, rfl⟩), rfl⟩
    · obtain ⟨e, he, haddr⟩ := h.indexed b way hb
      refine ⟨e, (setEntry_of_ne _ ?_).trans he, haddr⟩
      -- a slot that the index has for another address is not taken
      rintro ⟨hset, rfl⟩
      rw [show c.setOf b = c.setOf a from hset] at he
      rcases hslot e he with heq | hother
      · exact hba (haddr.symm.trans heq)
      · rw [haddr] at hother
        exact hother hb
  · rcases of_setEntry he with ⟨⟨rfl, rfl⟩, hnew⟩ | ⟨-, hold⟩
    · obtain rfl := Option.some.inj hnew
      exact ⟨(openSlot_some hopen).1, hp.1, rfl, rfl, rfl⟩
    · exact h.placed set way e hold
  · rcases of_setEntry he with ⟨⟨rfl, rfl⟩, hnew⟩ | ⟨-, hold⟩
    · obtain rfl := Option.some.inj hnew
      exact (setIndex_index _ _ _ _).trans (if_pos rfl)
    · refine (setIndex_index _ _ _ _).trans ((if_neg fun heq => habsent ⟨e, ?_⟩).trans
        (h.present set way e hold hperm))
      exact heq ▸ h.lookup_some hold hperm

theorem Indexed.changePermission (h : Indexed c) {new_perm : AccessPermission}
    (he : c.m_cache set way = some e) (hclean : Clean c (.changePermission set way new_perm)) :
    Indexed (c.setEntry set way (some { e with m_Permission := new_perm })) := by
  refine ⟨h.sets, h.ways, fun b way' hb => ?_, fun set' way' e' he' => ?_,
    fun set' way' e' he' hperm => ?_⟩
  · obtain ⟨e', he', haddr⟩ := h.indexed b way' hb
    by_cases hpos : c.setOf b = set ∧ way' = way
    · obtain ⟨rfl, rfl⟩ := hpos
      obtain rfl := Option.some.inj (he.symm.trans he')
      exact ⟨_, (setEntry_cache c _ _ _ _ _).trans (if_pos ⟨rfl, rfl⟩), haddr⟩
    · exact ⟨e', (setEntry_of_ne _ hpos).trans he', haddr⟩
  · rcases of_setEntry he' with ⟨⟨rfl, rfl⟩, hnew⟩ | ⟨-, hold⟩
    · obtain rfl := Option.some.inj hnew
      exact h.placed _ _ e he
    · exact h.placed set' way' e' hold
  · rcases of_setEntry he' with ⟨⟨rfl, rfl⟩, hnew⟩ | ⟨-, hold⟩
    · obtain rfl := Option.some.inj hnew
      exact (hclean e he).resolve_left hperm
    · exact h.present set' way' e' hold hperm

/-- **The condition keeps the index right.** -/
theorem Indexed.step (h : Indexed c) {act : Action} (hp : Possible c act) (hclean : Clean c act) :
    ∃ c', c.step act = .ok c' ∧ Indexed c' := by
  cases act with
  | allocate a => exact h.allocate hp hclean
  | deallocate a => exact h.deallocate hp
  | lookup a =>
    obtain ⟨r, hr, -⟩ := h.lookup_ok hp
    refine ⟨c, ?_, h⟩
    unfold CacheMemory.step
    dsimp only
    rw [hr]
    rfl
  | changePermission set way new_perm =>
    obtain ⟨e, he⟩ := Option.ne_none_iff_exists'.mp hp
    refine ⟨_, ?_, h.changePermission he hclean⟩
    unfold CacheMemory.step
    dsimp only
    rw [he]
    rfl

/-- **Without the condition** the promises are broken at once. -/
theorem not_consistent {c' : CacheMemory} (h : Indexed c) {act : Action} (hp : Possible c act)
    (hclean : ¬ Clean c act) (hstep : c.step act = .ok c') : ¬ Consistent c' := by
  intro hc
  cases act with
  | allocate a =>
    obtain ⟨-, i, hopen, hallocate⟩ := h.allocate_ok hp
    obtain rfl := Except.ok.inj (hallocate.symm.trans hstep)
    refine hclean fun way hway e he => ?_
    obtain rfl := Option.some.inj (hopen.symm.trans hway)
    by_contra hno
    rw [not_or, not_not] at hno
    obtain ⟨hne, hindex⟩ := hno
    obtain ⟨-, hline, hset, -, -⟩ := h.placed _ _ e he
    -- the index leads from the old address to the new entry
    obtain ⟨r, hr, hfound⟩ := hc.lookup e.m_Address hline
    have hnew := lookup_of_index (c := (c.setEntry (c.setOf a) i
        (some ⟨a, .Invalid, c.setOf a, i⟩)).setIndex a (some i)) hline
      ((setIndex_index _ _ _ _).trans ((if_neg hne).trans hindex))
      ((setEntry_cache c _ _ _ _ _).trans (if_pos ⟨hset, rfl⟩)) nofun
    exact hne (hfound _ (Except.ok.inj (hr.symm.trans hnew))).symm
  | deallocate a => exact hclean trivial
  | lookup a => exact hclean trivial
  | changePermission set way new_perm =>
    obtain ⟨e, he⟩ := Option.ne_none_iff_exists'.mp hp
    have hstep' : c.step (.changePermission set way new_perm) =
        .ok (c.setEntry set way (some { e with m_Permission := new_perm })) := by
      unfold CacheMemory.step
      dsimp only
      rw [he]
      rfl
    obtain rfl := Except.ok.inj (hstep'.symm.trans hstep)
    refine hclean fun e' he' => ?_
    obtain rfl := Option.some.inj (he.symm.trans he')
    by_contra hno
    obtain ⟨hperm, hindex⟩ := not_or.mp hno
    obtain ⟨-, hline, hset, -, hway⟩ := h.placed _ _ e he
    -- the revived entry is not the one that the index leads to
    obtain ⟨hlookup, -⟩ := hc.entries set way { e with m_Permission := new_perm }
      ((setEntry_cache c _ _ _ _ _).trans (if_pos ⟨rfl, rfl⟩)) hperm
    have hfound := lookup_eq
      (c := c.setEntry set way (some { e with m_Permission := new_perm }))
      (a := e.m_Address) hline
    cases hold : c.m_tag_index e.m_Address with
    | none =>
      rw [show (c.setEntry set way (some { e with m_Permission := new_perm })).m_tag_index
        e.m_Address = none from hold] at hfound
      exact nomatch hfound.symm.trans hlookup
    | some w =>
      rw [show (c.setEntry set way (some { e with m_Permission := new_perm })).m_tag_index
        e.m_Address = some w from hold] at hfound
      have hne : w ≠ way := fun heq => hindex (heq ▸ hold)
      obtain ⟨e₁, he₁, -⟩ := h.indexed _ _ hold
      dsimp only at hfound
      rw [setEntry_of_ne _ fun hpos => hne hpos.2,
        show (c.setEntry set way _).setOf e.m_Address = c.setOf e.m_Address from rfl,
        he₁] at hfound
      have hsame := Except.ok.inj (hfound.symm.trans hlookup)
      split_ifs at hsame
      obtain rfl := Option.some.inj hsame
      exact hne ((h.placed _ _ _ he₁).2.2.2.2.symm.trans hway)

/-! ## Runs -/

/-- The cache after `init()`. -/
theorem init_indexed {p : CacheParams} (h : init p = .ok c) : Indexed c := by
  unfold init at h
  obtain ⟨_, hassoc, h⟩ := bind_eq_ok.mp h
  obtain ⟨_, hsets, h⟩ := bind_eq_ok.mp h
  obtain ⟨_, -, h⟩ := bind_eq_ok.mp h
  obtain rfl := Except.ok.inj h
  have hpos := of_decide_eq_true (require_eq_ok.mp hsets)
  exact ⟨Nat.log2_self_le (by omega),
    Nat.pos_of_ne_zero (of_decide_eq_true (require_eq_ok.mp hassoc)), nofun, nofun, nofun⟩

/-- **The promises of the interface.**  In a run of permitted actions, all of them happen and the
promises hold in every state, exactly when every action meets the condition. -/
theorem consistent_iff {p : CacheParams} {c₀ : CacheMemory} (hinit : init p = .ok c₀)
    {as : List Action} (ha : Admitted Possible step c₀ as) :
    (∀ k, ∃ c, run step c₀ (as.take k) = .ok c ∧ Consistent c) ↔
      Admitted Clean step c₀ as := by
  have h₀ := init_indexed hinit
  clear hinit
  induction as generalizing c₀ with
  | nil =>
      refine ⟨fun _ => trivial, fun _ k => ⟨c₀, ?_, h₀.consistent⟩⟩
      rw [List.take_nil]
      rfl
  | cons act as ih =>
      obtain ⟨hp, ha⟩ := ha
      constructor
      · intro hall
        obtain ⟨c₁, hc₁, hgood⟩ := hall 1
        have hstep : step c₀ act = .ok c₁ := by
          cases hs : step c₀ act with
          | ok c =>
              rw [List.take_succ_cons, run_cons_ok _ hs] at hc₁
              exact hc₁
          | error e =>
              rw [List.take_succ_cons, run_cons_error _ hs] at hc₁
              exact nomatch hc₁
        have hclean : Clean c₀ act := by
          by_contra hno
          exact not_consistent h₀ hp hno hstep hgood
        obtain ⟨c', hc', h₁⟩ := h₀.step hp hclean
        obtain rfl := Except.ok.inj (hstep.symm.trans hc')
        refine ⟨hclean, fun c hc => ?_⟩
        obtain rfl := Except.ok.inj (hstep.symm.trans hc)
        refine (ih (ha c₁ hstep) h₁).mp fun k => ?_
        obtain ⟨c, hc, hcons⟩ := hall (k + 1)
        rw [List.take_succ_cons, run_cons_ok _ hstep] at hc
        exact ⟨c, hc, hcons⟩
      · rintro ⟨hclean, hrest⟩ k
        obtain ⟨c₁, hc₁, h₁⟩ := h₀.step hp hclean
        cases k with
        | zero => exact ⟨c₀, rfl, h₀.consistent⟩
        | succ k =>
            rw [List.take_succ_cons, run_cons_ok _ hc₁]
            exact (ih (ha c₁ hc₁) h₁).mpr (hrest c₁ hc₁) k

instance Present.decidable (c : CacheMemory) (a : BitVec 64) : Decidable (c.Present a) :=
  match h : c.lookup a with
  | .ok (some e) => .isTrue ⟨e, h⟩
  | .ok none => .isFalse fun ⟨_, he⟩ => nomatch Except.ok.inj (h.symm.trans he)
  | .error _ => .isFalse fun ⟨_, he⟩ => nomatch h.symm.trans he

instance Possible.decidable (c : CacheMemory) : ∀ act, Decidable (Possible c act)
  | .allocate _ => inferInstanceAs (Decidable (_ ∧ _ ∧ _))
  | .deallocate _ => inferInstanceAs (Decidable (_ ∧ _))
  | .lookup _ => inferInstanceAs (Decidable (_ = _))
  | .changePermission _ _ _ => inferInstanceAs (Decidable (_ ≠ _))

instance Clean.decidable (c : CacheMemory) : ∀ act, Decidable (Clean c act)
  | .allocate a => inferInstanceAs (Decidable (∀ way ∈ c.openSlot (c.setOf a),
      ∀ e ∈ c.m_cache (c.setOf a) way, _ ∨ _))
  | .changePermission set way _ => inferInstanceAs (Decidable (∀ e ∈ c.m_cache set way, _ ∨ _))
  | .deallocate _ => .isTrue trivial
  | .lookup _ => .isTrue trivial

/-- Two sets of one way, blocks of 64 bytes. -/
def smallParams : CacheParams where
  size := 128
  assoc := 1
  block_size := 64
  start_index_bit := 6
  blockSizeBits := 6

/-- The small cache when it is empty. -/
def small : CacheMemory where
  m_cache_num_sets := 2
  m_cache_num_set_bits := 1
  m_cache_assoc := 1
  m_start_index_bit := 6
  blockSizeBits := 6
  m_cache := fun _ _ => none
  m_tag_index := fun _ => none

theorem init_small : init smallParams = .ok small := by rfl

/-- A line gives way to another one in its set. -/
theorem consistent_replacement : ∃ c, run step small ([.allocate 0, .deallocate 0,
    .allocate 128, .changePermission 0 0 .Read_Write, .lookup 0].take 5) = .ok c ∧
      Consistent c :=
  (consistent_iff init_small (by decide +kernel)).mpr (by decide +kernel) 5

/-- **A line under the address of another one.**  The second line takes the place of the first,
which is `NotPresent`, and the address of the first then leads to the second. -/
theorem lookup_other_line :
    Admitted Possible step small [.allocate 0, .changePermission 0 0 .NotPresent, .allocate 128] ∧
      ∃ c, run step small [.allocate 0, .changePermission 0 0 .NotPresent, .allocate 128] = .ok c ∧
        c.lookup 0 = .ok (some ⟨128, .Invalid, 0, 0⟩) ∧ ¬ Consistent c := by
  have hrun : ∃ c, run step small [.allocate 0, .changePermission 0 0 .NotPresent,
      .allocate 128] = .ok c ∧ c.IsLineAddress 0 ∧
        c.lookup 0 = .ok (some ⟨128, .Invalid, 0, 0⟩) := by decide +kernel
  obtain ⟨c, hc, hline, hlookup⟩ := hrun
  refine ⟨by decide +kernel, c, hc, hlookup, fun hcons => ?_⟩
  obtain ⟨r, hr, hfound⟩ := hcons.lookup 0 hline
  obtain rfl := Except.ok.inj (hr.symm.trans hlookup)
  exact absurd (hfound _ rfl) (by decide)

end CacheMemory

end Gem5.Ruby
