/-
# Crossbars route by the latest announcements

After any notifications of the ports, the address map of a crossbar routes by what each
port announced last, whatever the order of the notifications; and once every port has
announced, the published ranges cover exactly what the ports announced, the default port's
range included when it is used.
-/
import Gem5.RangeUnion
import Gem5.XBarRoutes

open Runs

namespace Gem5.Mem.AddressMap

open Base

theorem ofRange_eq_ok {α : Type} {x : Except Fail α} {a : α} :
    ofRange x = .ok a ↔ x = .ok a := by
  cases x <;> simp [ofRange, Except.mapError]

/-! ## The published ranges -/

section Published

variable {cfg : Params} {x : BaseXBar} {a : Addr}

/-- The address is in the default range, and the default range is used. -/
def InDefault (cfg : Params) (x : BaseXBar) (a : Addr) : Prop :=
  cfg.useDefaultRange = true ∧ x.defaultRange.contains a = .ok true

/-- **Publishing a range** covers it: a range that is left out lies in the default range. -/
theorem publish_covers {out out' : List AddrRange} {r : AddrRange}
    (hdef : cfg.useDefaultRange = true → Proper x.defaultRange)
    (hout : InDefault cfg x a → Covered out a) (h : x.publish cfg out r = .ok out') :
    Covered out' a ↔ Covered out a ∨ r.contains a = .ok true := by
  have happend : Covered (out ++ [r]) a ↔ Covered out a ∨ r.contains a = .ok true := by
    rw [covered_append, covered_singleton]
  unfold BaseXBar.publish at h
  by_cases huse : cfg.useDefaultRange = true
  · rw [if_pos huse] at h
    obtain ⟨inside, hinside, h⟩ := bind_eq_ok.mp h
    cases inside with
    | false =>
      obtain rfl := Except.ok.inj h
      exact happend
    | true =>
      obtain rfl := Except.ok.inj h
      refine ⟨.inl, fun hcov => hcov.elim id fun hr => hout ⟨huse, ?_⟩⟩
      obtain ⟨hs, he, -⟩ := contains_iff.mp hr
      exact contains_of_subset (hdef huse) (ofRange_eq_ok.mp hinside) hs he
  · rw [if_neg huse] at h
    obtain rfl := Except.ok.inj h
    exact happend

/-- What the loop over the map has collected after the ranges `done`. -/
structure Collected (cfg : Params) (x : BaseXBar) (done : List AddrRange)
    (acc : List AddrRange × List AddrRange) : Prop where
  covers : ∀ a, Covered acc.1 a ∨ Covered acc.2 a ↔ InDefault cfg x a ∨ Covered done a
  default : ∀ a, InDefault cfg x a → Covered acc.1 a
  group : acc.2.Sublist done

/-- Merging the collected ranges covers them. -/
theorem mergeGroup_covers {done : List AddrRange} {acc : List AddrRange × List AddrRange}
    {out : List AddrRange} (hacc : Collected cfg x done acc)
    (hfollows : done.Pairwise Follows) (hproper : ∀ r ∈ done, Proper r)
    (hdef : cfg.useDefaultRange = true → Proper x.defaultRange) (hne : acc.2 ≠ [])
    (h : x.mergeGroup cfg acc.1 acc.2 = .ok out) (a : Addr) :
    Covered out a ↔ Covered acc.1 a ∨ Covered acc.2 a := by
  obtain ⟨M, hM, hpub⟩ := bind_eq_ok.mp h
  rw [publish_covers hdef (hacc.default a) hpub,
    ofRanges_covers hne (hfollows.sublist hacc.group)
      (fun r hr => hproper r (hacc.group.subset hr)) (ofRange_eq_ok.mp hM) a]

/-- One round of the loop. -/
theorem Collected.step {done : List AddrRange} {acc acc' : List AddrRange × List AddrRange}
    {r : AddrRange} (hacc : Collected cfg x done acc) (hfollows : done.Pairwise Follows)
    (hproper : ∀ r ∈ done, Proper r) (hdef : cfg.useDefaultRange = true → Proper x.defaultRange)
    (h : x.aggregateOne cfg acc r = .ok acc') : Collected cfg x (done ++ [r]) acc' := by
  have hlast : [r].Sublist (done ++ [r]) := List.sublist_append_right done [r]
  unfold BaseXBar.aggregateOne at h
  by_cases hinter : r.interleaved = true
  · rw [if_pos hinter] at h
    unfold BaseXBar.collect at h
    cases hback : acc.2.getLast? with
    | none =>
      rw [hback] at h
      obtain rfl := Except.ok.inj h
      have hnil : acc.2 = [] := List.getLast?_eq_none_iff.mp hback
      refine ⟨fun a => ?_, hacc.default, hlast⟩
      have hcov := hacc.covers a
      rw [hnil] at hcov
      have hno := not_covered_nil (a := a)
      rw [covered_append]
      tauto
    | some back =>
      rw [hback] at h
      dsimp only at h
      split at h
      · obtain rfl := Except.ok.inj h
        refine ⟨fun a => ?_, hacc.default, hacc.group.append (List.Sublist.refl [r])⟩
        have hcov := hacc.covers a
        rw [covered_append, covered_append]
        tauto
      · obtain ⟨out, hout, h⟩ := bind_eq_ok.mp h
        obtain rfl := Except.ok.inj h
        have hne : acc.2 ≠ [] := by
          rintro hnil
          rw [hnil] at hback
          cases hback
        have hmerge := mergeGroup_covers hacc hfollows hproper hdef hne hout
        refine ⟨fun a => ?_, fun a ha => (hmerge a).mpr (.inl (hacc.default a ha)), hlast⟩
        have hcov := hacc.covers a
        rw [hmerge a, covered_append]
        tauto
  · rw [if_neg hinter] at h
    obtain ⟨out, hout, h⟩ := bind_eq_ok.mp h
    obtain rfl := Except.ok.inj h
    have hpub := fun a => publish_covers hdef (hacc.default a) hout
    refine ⟨fun a => ?_, fun a ha => (hpub a).mpr (.inl (hacc.default a ha)),
      hacc.group.trans (List.sublist_append_left done [r])⟩
    have hcov := hacc.covers a
    rw [hpub a, covered_append, covered_singleton]
    tauto

/-- The whole loop. -/
theorem Collected.loop {rest done : List AddrRange} {acc acc' : List AddrRange × List AddrRange}
    (hacc : Collected cfg x done acc) (hfollows : (done ++ rest).Pairwise Follows)
    (hproper : ∀ r ∈ done ++ rest, Proper r)
    (hdef : cfg.useDefaultRange = true → Proper x.defaultRange)
    (h : rest.foldlM (x.aggregateOne cfg) acc = .ok acc') :
    Collected cfg x (done ++ rest) acc' := by
  induction rest generalizing done acc with
  | nil =>
    obtain rfl := Except.ok.inj h
    rw [List.append_nil]
    exact hacc
  | cons r rest ih =>
    rw [List.foldlM_cons] at h
    obtain ⟨mid, hmid, h⟩ := bind_eq_ok.mp h
    have hstep := hacc.step (List.pairwise_append.mp hfollows).1
      (fun r' hr' => hproper r' (List.mem_append_left _ hr')) hdef hmid
    have hassoc : done ++ r :: rest = done ++ [r] ++ rest := by
      rw [List.append_assoc, List.singleton_append]
    rw [hassoc] at hfollows hproper ⊢
    exact ih hstep hfollows hproper h

/-- **The published ranges** cover the default range, when it is used, and the map. -/
theorem aggregate_covers {out : List AddrRange} (ht : InOrder x.portMap.tree)
    (hdef : cfg.useDefaultRange = true → Proper x.defaultRange)
    (h : x.aggregate cfg = .ok out) (a : Addr) :
    Covered out a ↔ InDefault cfg x a ∨ ∃ n ∈ x.portMap.tree, n.range.contains a = .ok true := by
  obtain ⟨first, hfirst, h⟩ := bind_eq_ok.mp h
  obtain ⟨acc, hloop, h⟩ := bind_eq_ok.mp h
  obtain ⟨out', hrest, h⟩ := bind_eq_ok.mp h
  obtain rfl : out' = out := by
    split at h
    · obtain ⟨_, -, h⟩ := bind_eq_ok.mp h
      exact Except.ok.inj h
    · exact Except.ok.inj h
  have hstart : Collected cfg x [] (first, []) := by
    unfold BaseXBar.firstRanges at hfirst
    refine ⟨fun a => ?_, fun a ha => ?_, List.Sublist.refl []⟩
    · have hno := not_covered_nil (a := a)
      split at hfirst
      · next huse =>
          obtain ⟨_, -, hfirst⟩ := bind_eq_ok.mp hfirst
          obtain ⟨_, -, hfirst⟩ := bind_eq_ok.mp hfirst
          obtain rfl := Except.ok.inj hfirst
          rw [covered_singleton, InDefault]
          tauto
      · next huse =>
          obtain rfl := Except.ok.inj hfirst
          rw [InDefault]
          tauto
    · rw [if_pos ha.1] at hfirst
      obtain ⟨_, -, hfirst⟩ := bind_eq_ok.mp hfirst
      obtain ⟨_, -, hfirst⟩ := bind_eq_ok.mp hfirst
      obtain rfl := Except.ok.inj hfirst
      exact covered_singleton.mpr ha.2
  have hfollows : (x.portMap.tree.map Node.range).Pairwise Follows :=
    List.pairwise_map.mpr ht.follows
  have hproper : ∀ r ∈ x.portMap.tree.map Node.range, Proper r := by
    intro r hr
    obtain ⟨n, hn, rfl⟩ := List.mem_map.mp hr
    exact ht.proper n hn
  have hall : Collected cfg x (x.portMap.tree.map Node.range) acc :=
    hstart.loop hfollows hproper hdef hloop
  have htree : Covered (x.portMap.tree.map Node.range) a ↔
      ∃ n ∈ x.portMap.tree, n.range.contains a = .ok true := by
    simp only [Covered, List.mem_map, exists_exists_and_eq_and]
  rw [← htree, ← hall.covers a]
  unfold BaseXBar.mergeRest at hrest
  split at hrest
  · next hnil =>
      obtain rfl := Except.ok.inj hrest
      have hno := not_covered_nil (a := a)
      rw [hnil]
      tauto
  · next hne => exact mergeGroup_covers hall hfollows hproper hdef hne hrest a

end Published

/-! ## The entries of the map -/

section Entries

variable {m m' : AddrRangeMap ℕ} {id : ℕ}

/-- The map has an entry for the range that leads to the port. -/
def HasEntry (m : AddrRangeMap ℕ) (r : AddrRange) (p : ℕ) : Prop :=
  ∃ n ∈ m.tree, n.range = r ∧ n.value = p

/-- Erasing the entries of a port among some nodes. -/
theorem eraseNodes_spec {nodes : List (Node ℕ)} (hm : MapInv m)
    (h : nodes.foldlM (eraseNode id) m = .ok m') :
    MapInv m' ∧ ∀ n, n ∈ m'.tree ↔ n ∈ m.tree ∧ ¬∃ k ∈ nodes, k.value = id ∧ k.id = n.id := by
  induction nodes generalizing m with
  | nil =>
    obtain rfl := Except.ok.inj h
    exact ⟨hm, fun n => by simp⟩
  | cons k nodes ih =>
    rw [List.foldlM_cons] at h
    obtain ⟨mid, hmid, h⟩ := bind_eq_ok.mp h
    unfold eraseNode at hmid
    by_cases hk : k.value = id
    · rw [if_pos hk] at hmid
      have hstep : m.step cacheSize (.erase k.id) = .ok mid := hmid
      have hsafe : CacheSafe m (.erase k.id) := trivial
      have hmidInv : MapInv mid := hm.step hsafe trivial hstep
      obtain ⟨hinv, hmem⟩ := ih hmidInv h
      refine ⟨hinv, fun n => ?_⟩
      obtain ⟨_, -, hret⟩ := bind_eq_ok.mp hmid
      obtain rfl := Except.ok.inj hret
      rw [hmem n]
      simp only [List.mem_filter, decide_eq_true_eq, List.exists_mem_cons_iff, hk, true_and,
        not_or, ne_eq, eq_comm (a := k.id)]
      tauto
    · rw [if_neg hk] at hmid
      obtain rfl := Except.ok.inj hmid
      obtain ⟨hinv, hmem⟩ := ih hm h
      refine ⟨hinv, fun n => ?_⟩
      rw [hmem n]
      simp only [List.exists_mem_cons_iff, hk, false_and, false_or]

/-- **Erasing** leaves the entries of the other ports. -/
theorem erasePort_spec (hm : MapInv m) (h : erasePort m id = .ok m') :
    MapInv m' ∧ ∀ r p, HasEntry m' r p ↔ HasEntry m r p ∧ p ≠ id := by
  obtain ⟨hinv, hmem⟩ := eraseNodes_spec hm h
  refine ⟨hinv, fun r p => ?_⟩
  constructor
  · rintro ⟨n, hn, rfl, rfl⟩
    obtain ⟨hn, hno⟩ := (hmem n).mp hn
    exact ⟨⟨n, hn, rfl, rfl⟩, fun hid => hno ⟨n, hn, hid, rfl⟩⟩
  · rintro ⟨⟨n, hn, rfl, rfl⟩, hne⟩
    refine ⟨n, (hmem n).mpr ⟨hn, ?_⟩, rfl, rfl⟩
    rintro ⟨k, hk, hid, heq⟩
    -- nodes are told apart by their identity
    have hkn : k = n := List.inj_on_of_nodup_map hm.ids hk hn heq
    exact hne (hkn ▸ hid)

/-- A range that intersects no entry has no equivalent key in the map. -/
theorem not_equivalent {r s : AddrRange} (hr : Proper r) (hs : Valid s) (hc : Comparable r s)
    (hno : r.intersects s = .ok false) : (!r.lt s && !s.lt r) = false := by
  by_contra hequiv
  rw [Bool.not_eq_false, Bool.and_eq_true, Bool.not_eq_true', Bool.not_eq_true'] at hequiv
  obtain ⟨hrs, hsr⟩ := hequiv
  rw [Bool.eq_false_iff, ne_eq, lt_iff] at hrs hsr
  have hrne := hr.nonempty
  have hsne := hs.nonempty
  have hstart : r.start = s.start := by bv_omega
  have hover : Overlaps r s := by
    constructor <;> bv_omega
  by_cases hrm : r.masks = []
  · have hsm : s.masks = [] := by
      by_contra hsm
      exact hsr (.inr ⟨hstart.symm, hsm, .inl hrm⟩)
    rw [intersects_plain hover hrm hsm] at hno
    cases hno
  · rcases hc hover with ⟨hcon, -⟩ | hmerge
    · exact hrm hcon
    · have hsm : s.masks ≠ [] := (mergesWith_iff.mp hmerge).2.2 ▸ hrm
      rw [intersects_group hs.toProper hover hrm hmerge, if_neg (hs.several hsm)] at hno
      have hmatch : r.intlvMatch ≠ s.intlvMatch := of_decide_eq_false (Except.ok.inj hno)
      have h1 : ¬r.intlvMatch < s.intlvMatch := fun h => hrs (.inr ⟨hstart, hrm, .inr h⟩)
      have h2 : ¬s.intlvMatch < r.intlvMatch := fun h => hsr (.inr ⟨hstart.symm, hsm, .inr h⟩)
      exact hmatch (by bv_omega)

/-- **Inserting** a range adds its entry. -/
theorem insertRange_spec {r : AddrRange} (hm : MapInv m) (hvalid : ∀ n ∈ m.tree, Valid n.range)
    (hr : Valid r) (hc : ∀ n ∈ m.tree, Comparable r n.range) (h : insertRange id m r = .ok m') :
    MapInv m' ∧ ∀ s p, HasEntry m' s p ↔ HasEntry m s p ∨ s = r ∧ p = id := by
  obtain ⟨res, cache, hfind, hlive, -, -, hnone⟩ :=
    find_spec hm cacheSize (searchable_intersects hm.inOrder hc)
  obtain ⟨found, hfound, h⟩ := bind_eq_ok.mp h
  obtain rfl := Except.ok.inj (hfind.symm.trans (ofRange_eq_ok.mp hfound))
  obtain ⟨_, hreq, h⟩ := bind_eq_ok.mp h
  obtain rfl := Except.ok.inj h
  have hno := hnone (Option.isNone_iff_eq_none.mp (require_eq_ok.mp hreq))
  refine ⟨(hm.withCache hlive).treeInsert hr.toProper hc hno, fun s p => ?_⟩
  have hfresh : ¬(m.tree.any fun n => !r.lt n.range && !n.range.lt r) = true := by
    rw [List.any_eq_true]
    rintro ⟨n, hn, hequiv⟩
    rw [not_equivalent hr.toProper (hvalid n hn) (hc n hn) (hno n hn)] at hequiv
    cases hequiv
  have htree : (AddrRangeMap.treeInsert { m with cache := cache } r id).tree =
      nodesUpTo m.tree r ++ ⟨m.nextId, r, id⟩ :: nodesAfter m.tree r := by
    unfold AddrRangeMap.treeInsert
    rw [if_neg hfresh]
  unfold HasEntry
  simp only [htree, mem_treeInsert, or_and_right, exists_or, exists_eq_left]
  constructor
  · rintro (⟨rfl, rfl⟩ | hold)
    · exact .inr ⟨rfl, rfl⟩
    · exact .inl hold
  · rintro (hold | ⟨rfl, rfl⟩)
    · exact .inr hold
    · exact .inl ⟨rfl, rfl⟩

/-- Inserting all ranges of a port. -/
theorem insertRanges_spec {ranges : List AddrRange} (hm : MapInv m)
    (hvalid : ∀ n ∈ m.tree, Valid n.range) (hranges : ∀ r ∈ ranges, Valid r)
    (hc : ∀ r ∈ ranges, ∀ n ∈ m.tree, Comparable r n.range)
    (hpair : ranges.Pairwise fun x y => Comparable y x)
    (h : ranges.foldlM (insertRange id) m = .ok m') :
    MapInv m' ∧ ∀ s p, HasEntry m' s p ↔ HasEntry m s p ∨ s ∈ ranges ∧ p = id := by
  induction ranges generalizing m with
  | nil =>
    obtain rfl := Except.ok.inj h
    exact ⟨hm, fun s p => by simp⟩
  | cons r ranges ih =>
    rw [List.foldlM_cons] at h
    obtain ⟨mid, hmid, h⟩ := bind_eq_ok.mp h
    obtain ⟨hr, hranges'⟩ := List.forall_mem_cons.mp hranges
    obtain ⟨hcr, hc'⟩ := List.forall_mem_cons.mp hc
    obtain ⟨hpr, hpair'⟩ := List.pairwise_cons.mp hpair
    obtain ⟨hinv, hentry⟩ := insertRange_spec hm hvalid hr hcr hmid
    have hnode : ∀ n ∈ mid.tree, (∃ k ∈ m.tree, k.range = n.range) ∨ n.range = r := by
      intro n hn
      rcases (hentry n.range n.value).mp ⟨n, hn, rfl, rfl⟩ with ⟨k, hk, heq, -⟩ | ⟨heq, -⟩
      · exact .inl ⟨k, hk, heq⟩
      · exact .inr heq
    have hvalid' : ∀ n ∈ mid.tree, Valid n.range := by
      intro n hn
      rcases hnode n hn with ⟨k, hk, heq⟩ | heq
      · exact heq ▸ hvalid k hk
      · exact heq ▸ hr
    have hcmid : ∀ s ∈ ranges, ∀ n ∈ mid.tree, Comparable s n.range := by
      intro s hs n hn
      rcases hnode n hn with ⟨k, hk, heq⟩ | heq
      · exact heq ▸ hc' s hs k hk
      · exact heq ▸ hpr s hs
    obtain ⟨hinv', hentry'⟩ := ih hinv hvalid' hranges' hcmid hpair' h
    refine ⟨hinv', fun s p => ?_⟩
    rw [hentry' s p, hentry s p, List.mem_cons]
    tauto

end Entries

/-! ## Whole runs -/

/-- The crossbar knows the latest announcements. -/
structure Known (cfg : Params) (w : World) : Prop where
  map : MapInv w.xbar.portMap
  entries : ∀ r p, HasEntry w.xbar.portMap r p ↔ r ∈ w.ranges p ∧ some p ≠ cfg.defaultPortID
  valid : ∀ p, Counts cfg p → ∀ r ∈ w.ranges p, Valid r
  ports : ∀ p, w.latest p ≠ none → p < cfg.numPorts
  got : w.xbar.gotAddrRanges = (List.range cfg.numPorts).map fun p => (w.latest p).isSome
  gotAll : w.xbar.gotAllAddrRanges = true ↔
    0 < cfg.numPorts ∧ ∀ p < cfg.numPorts, w.latest p ≠ none
  default : cfg.useDefaultRange = true → ∀ p l, cfg.defaultPortID = some p →
    w.latest p = some l → l = [w.xbar.defaultRange]

/-- The crossbar knows the latest announcements, and has published them if it has all. -/
structure Inv (cfg : Params) (w : World) : Prop extends Known cfg w where
  defaultKnown : w.xbar.gotAllAddrRanges = true → cfg.useDefaultRange = true →
    ∃ d, cfg.defaultPortID = some d ∧ w.latest d = some [w.xbar.defaultRange]
  covers : w.xbar.gotAllAddrRanges = true → ∀ a,
    Covered w.xbar.xbarRanges a ↔ ∃ p, Counts cfg p ∧ Covered (w.ranges p) a

section Whole

variable {cfg : Params} {w w' : World}

theorem Inv.start (cfg : Params) : Inv cfg (start cfg) := by
  refine ⟨⟨mapInv_empty, fun r p => ?_, nofun, fun p h => absurd rfl h, ?_, ?_, nofun⟩,
    nofun, nofun⟩
  · exact ⟨fun ⟨_, h, _⟩ => (List.not_mem_nil h).elim, fun h => (List.not_mem_nil h.1).elim⟩
  · show List.replicate cfg.numPorts false = (List.range cfg.numPorts).map fun _ => false
    rw [List.map_const', List.length_range]
  · exact ⟨nofun, fun h => absurd rfl (h.2 0 h.1)⟩

/-- A port is known to have announced if it has. -/
theorem Known.got_iff (hw : Known cfg w) (p : ℕ) :
    w.xbar.gotAddrRanges[p]? = some true ↔ w.latest p ≠ none := by
  rw [hw.got, List.getElem?_map]
  constructor
  · intro h
    obtain ⟨q, hq, hsome⟩ := Option.map_eq_some_iff.mp h
    obtain ⟨_, rfl⟩ := List.getElem?_eq_some_iff.mp hq
    rw [List.getElem_range] at hsome
    exact Option.isSome_iff_ne_none.mp hsome
  · intro h
    rw [List.getElem?_range (hw.ports p h)]
    exact congrArg some (Option.isSome_iff_ne_none.mpr h)

/-! ### A notification -/

section Notification

variable {id : ℕ} {ranges : List AddrRange}

/-- What the ports announced last, after one more announcement. -/
theorem ranges_update (x : BaseXBar) (p : ℕ) :
    World.ranges ⟨x, Function.update w.latest id (some ranges)⟩ p =
      if p = id then ranges else w.ranges p := by
  unfold World.ranges
  dsimp only
  by_cases hp : p = id
  · rw [if_pos hp, hp, Function.update_self]
    rfl
  · rw [if_neg hp, Function.update_of_ne hp]

theorem latest_update_ne_none {p : ℕ} :
    Function.update w.latest id (some ranges) p ≠ none ↔ p = id ∨ w.latest p ≠ none := by
  by_cases hp : p = id
  · subst hp
    simp
  · rw [Function.update_of_ne hp]
    simp [hp]

/-- The flags after an announcement. -/
theorem gotRanges_got (hw : Known cfg w) :
    (w.xbar.gotRanges id).gotAddrRanges = (List.range cfg.numPorts).map fun p =>
      (Function.update w.latest id (some ranges) p).isSome := by
  show w.xbar.gotAddrRanges.set id true = _
  rw [hw.got]
  apply List.ext_getElem
  · simp
  · intro p hp _
    rw [List.getElem_set, List.getElem_map, List.getElem_map, List.getElem_range]
    by_cases hpid : id = p
    · rw [if_pos hpid, hpid, Function.update_self]
      rfl
    · rw [if_neg hpid, Function.update_of_ne (Ne.symm hpid)]

/-- All ports have announced when every flag is set. -/
theorem gotRanges_gotAll (hw : Known cfg w) (hid : id < cfg.numPorts) :
    (w.xbar.gotRanges id).gotAllAddrRanges = true ↔ 0 < cfg.numPorts ∧
      ∀ p < cfg.numPorts, Function.update w.latest id (some ranges) p ≠ none := by
  have hflags : (w.xbar.gotRanges id).gotAddrRanges = (List.range cfg.numPorts).map fun p =>
      (Function.update w.latest id (some ranges) p).isSome := gotRanges_got hw
  show (w.xbar.gotAllAddrRanges || (w.xbar.gotRanges id).gotAddrRanges.all (· = true)) = true ↔ _
  rw [Bool.or_eq_true, hw.gotAll, hflags]
  simp only [List.all_map, List.all_eq_true, List.mem_range, Function.comp_apply,
    decide_eq_true_eq, Option.isSome_iff_ne_none]
  constructor
  · rintro (⟨hpos, hall⟩ | hall)
    · exact ⟨hpos, fun p hp => latest_update_ne_none.mpr (.inr (hall p hp))⟩
    · exact ⟨by omega, hall⟩
  · exact fun h => .inr h.2

/-- The ranges of all ports stay valid. -/
theorem Known.valid_update (hw : Known cfg w) (x : BaseXBar)
    (hranges : Counts cfg id → ∀ r ∈ ranges, Valid r) : ∀ p, Counts cfg p →
      ∀ r ∈ World.ranges ⟨x, Function.update w.latest id (some ranges)⟩ p, Valid r := by
  intro p hp r hr
  rw [ranges_update] at hr
  split at hr
  · next heq => exact hranges (heq ▸ hp) r hr
  · exact hw.valid p hp r hr

/-- Only ports of the crossbar announce. -/
theorem Known.ports_update (hw : Known cfg w) (hid : id < cfg.numPorts) : ∀ p,
    Function.update w.latest id (some ranges) p ≠ none → p < cfg.numPorts := by
  intro p hp
  rcases latest_update_ne_none.mp hp with rfl | hp
  · exact hid
  · exact hw.ports p hp

/-- **New ranges of the default port** become the default range. -/
theorem Known.setDefault (hw : Known cfg w) (hid : id < cfg.numPorts)
    (hranges : Counts cfg id → ∀ r ∈ ranges, Valid r) (hdef : some id = cfg.defaultPortID)
    {x : BaseXBar} (h : (w.xbar.gotRanges id).setDefault cfg ranges = .ok x) :
    Known cfg ⟨x, Function.update w.latest id (some ranges)⟩ := by
  have hfields : x.portMap = w.xbar.portMap ∧
      x.gotAddrRanges = (w.xbar.gotRanges id).gotAddrRanges ∧
      x.gotAllAddrRanges = (w.xbar.gotRanges id).gotAllAddrRanges ∧
      (cfg.useDefaultRange = true → ranges = [x.defaultRange]) := by
    unfold BaseXBar.setDefault at h
    split at h
    · obtain ⟨_, hreq, h⟩ := bind_eq_ok.mp h
      obtain rfl := Except.ok.inj h
      obtain ⟨r, rfl⟩ := List.length_eq_one_iff.mp (of_decide_eq_true (require_eq_ok.mp hreq))
      exact ⟨rfl, rfl, rfl, fun _ => rfl⟩
    · next hno =>
        obtain rfl := Except.ok.inj h
        exact ⟨rfl, rfl, rfl, fun huse => absurd huse hno⟩
  obtain ⟨hmap, hgot, hall, hone⟩ := hfields
  refine ⟨hmap ▸ hw.map, fun r p => ?_, hw.valid_update x hranges, hw.ports_update hid,
    hgot.trans (gotRanges_got hw), ?_, fun huse p l hp hl => ?_⟩
  · show HasEntry x.portMap r p ↔ _
    rw [hmap, hw.entries, ranges_update]
    refine and_congr_left fun hne => ?_
    have hpid : p ≠ id := by
      rintro rfl
      exact hne hdef
    rw [if_neg hpid]
  · show x.gotAllAddrRanges = true ↔ _
    rw [hall]
    exact gotRanges_gotAll hw hid
  · have heq : p = id := Option.some.inj (hp.symm.trans hdef.symm)
    have hlatest : Function.update w.latest id (some ranges) p = some l := hl
    rw [heq, Function.update_self] at hlatest
    exact (Option.some.inj hlatest) ▸ hone huse

/-- **New ranges of another port** replace its entries. -/
theorem Known.setRanges (hw : Known cfg w) (hid : id < cfg.numPorts)
    (hranges : Counts cfg id → ∀ r ∈ ranges, Valid r) (hdef : some id ≠ cfg.defaultPortID)
    (hfits : Fits cfg w id ranges) {x : BaseXBar}
    (h : (w.xbar.gotRanges id).setRanges id ranges = .ok x) :
    Known cfg ⟨x, Function.update w.latest id (some ranges)⟩ := by
  obtain ⟨erased, herase, h⟩ := bind_eq_ok.mp h
  obtain ⟨portMap, hinsert, h⟩ := bind_eq_ok.mp h
  obtain rfl := Except.ok.inj h
  obtain ⟨hinv, hentry⟩ := erasePort_spec hw.map (ofRange_eq_ok.mp herase)
  -- the nodes that are left hold the ranges of the other ports
  have hnode : ∀ n ∈ erased.tree, n.range ∈ w.ranges n.value ∧
      some n.value ≠ cfg.defaultPortID ∧ n.value ≠ id := by
    intro n hn
    obtain ⟨hold, hne⟩ := (hentry n.range n.value).mp ⟨n, hn, rfl, rfl⟩
    obtain ⟨hr, hp⟩ := (hw.entries n.range n.value).mp hold
    exact ⟨hr, hp, hne⟩
  have hvalid : ∀ n ∈ erased.tree, Valid n.range := fun n hn =>
    hw.valid n.value (.inr (hnode n hn).2.1) n.range (hnode n hn).1
  have hcomp : ∀ r ∈ ranges, ∀ n ∈ erased.tree, Comparable r n.range := by
    intro r hr n hn
    obtain ⟨hmem, hp, hne⟩ := hnode n hn
    have hlatest : w.latest n.value ≠ none := by
      intro hnone
      unfold World.ranges at hmem
      rw [hnone] at hmem
      exact List.not_mem_nil hmem
    exact hfits.2 n.value (hw.ports n.value hlatest) hne hp n.range hmem r hr
  obtain ⟨hinv', hentry'⟩ :=
    insertRanges_spec hinv hvalid (hranges (.inr hdef)) hcomp hfits.1 hinsert
  refine ⟨hinv', fun r p => ?_, hw.valid_update _ hranges, hw.ports_update hid,
    gotRanges_got hw, gotRanges_gotAll hw hid, fun huse p l hp hl => ?_⟩
  · rw [hentry' r p, hentry r p, hw.entries r p, ranges_update]
    by_cases hp : p = id
    · rw [if_pos hp, hp]
      tauto
    · rw [if_neg hp]
      tauto
  · have hne : p ≠ id := fun heq => hdef (heq ▸ hp.symm)
    have hlatest : Function.update w.latest id (some ranges) p = some l := hl
    rw [Function.update_of_ne hne] at hlatest
    exact hw.default huse p l hp hlatest

/-- The default range is proper if it is known. -/
theorem Known.properDefault (hw : Known cfg w) {d : ℕ} (huse : cfg.useDefaultRange = true)
    (hd : w.latest d = some [w.xbar.defaultRange]) : Proper w.xbar.defaultRange := by
  refine (hw.valid d (.inl huse) _ ?_).toProper
  unfold World.ranges
  rw [hd]
  exact List.mem_singleton_self _

/-- **Publishing** covers what the ports announced. -/
theorem Known.republish (hw : Known cfg w) {x : BaseXBar}
    (h : w.xbar.republish cfg = .ok x) : Inv cfg ⟨x, w.latest⟩ := by
  unfold BaseXBar.republish at h
  split at h
  · next hall =>
      obtain ⟨out, hout, h⟩ := bind_eq_ok.mp h
      obtain rfl := Except.ok.inj h
      have hknown : cfg.useDefaultRange = true →
          ∃ d, cfg.defaultPortID = some d ∧ w.latest d = some [w.xbar.defaultRange] := by
        intro huse
        obtain ⟨first, hfirst, -⟩ := bind_eq_ok.mp hout
        unfold BaseXBar.firstRanges at hfirst
        rw [if_pos huse] at hfirst
        obtain ⟨d, hd, hfirst⟩ := bind_eq_ok.mp hfirst
        obtain ⟨_, hreq, -⟩ := bind_eq_ok.mp hfirst
        have hgot := of_decide_eq_true (require_eq_ok.mp hreq)
        obtain ⟨l, hl⟩ := Option.ne_none_iff_exists'.mp ((hw.got_iff d).mp hgot)
        have hdef := orFail_eq_ok.mp hd
        exact ⟨d, hdef, hw.default huse d l hdef hl ▸ hl⟩
      refine ⟨{ hw with }, fun _ => hknown, fun _ a => ?_⟩
      show Covered out a ↔ _
      have hproper : cfg.useDefaultRange = true → Proper w.xbar.defaultRange := fun huse =>
        (hknown huse).elim fun d hd => hw.properDefault huse hd.2
      rw [aggregate_covers hw.map.inOrder hproper hout a]
      constructor
      · rintro (⟨huse, hcon⟩ | ⟨n, hn, hcon⟩)
        · obtain ⟨d, -, hlatest⟩ := hknown huse
          refine ⟨d, .inl huse, w.xbar.defaultRange, ?_, hcon⟩
          show w.xbar.defaultRange ∈ w.ranges d
          unfold World.ranges
          rw [hlatest]
          exact List.mem_singleton_self _
        · obtain ⟨hr, hp⟩ := (hw.entries n.range n.value).mp ⟨n, hn, rfl, rfl⟩
          exact ⟨n.value, .inr hp, n.range, hr, hcon⟩
      · rintro ⟨p, hp, r, hr, hcon⟩
        by_cases hdef : some p = cfg.defaultPortID
        · have huse : cfg.useDefaultRange = true := hp.resolve_right (not_not.mpr hdef)
          obtain ⟨d, hd, hlatest⟩ := hknown huse
          obtain rfl := Option.some.inj (hdef.trans hd)
          have hmem : r ∈ w.ranges p := hr
          unfold World.ranges at hmem
          rw [hlatest] at hmem
          exact .inl ⟨huse, List.mem_singleton.mp hmem ▸ hcon⟩
        · obtain ⟨n, hn, rfl, -⟩ := (hw.entries r p).mpr ⟨hr, hdef⟩
          exact .inr ⟨n, hn, hcon⟩
  · next hno =>
      obtain rfl := Except.ok.inj h
      exact ⟨hw, fun hall => absurd hall hno, fun hall => absurd hall hno⟩

end Notification

/-- **A notification** is known, and published. -/
theorem Inv.rangeChange (hw : Inv cfg w) {id : ℕ} {ranges : List AddrRange}
    (ha : Allowed cfg w (.rangeChange id ranges))
    (h : step cfg w (.rangeChange id ranges) = .ok w') : Inv cfg w' := by
  obtain ⟨x, hx, h⟩ := bind_eq_ok.mp h
  obtain rfl := Except.ok.inj h
  obtain ⟨x₁, hnew, hx⟩ := bind_eq_ok.mp hx
  obtain ⟨hid, hranges, hfits⟩ := ha
  have hknown : Known cfg ⟨x₁, Function.update w.latest id (some ranges)⟩ := by
    unfold BaseXBar.newRanges at hnew
    split at hnew
    · next hdef => exact hw.toKnown.setDefault hid hranges hdef hnew
    · next hdef => exact hw.toKnown.setRanges hid hranges hdef (hfits hdef) hnew
  exact hknown.republish hx

/-! ### A lookup -/

/-- The port is not the default port, and one of its latest ranges is a superset. -/
def Owns (cfg : Params) (ranges : ℕ → List AddrRange) (q : AddrRange) (p : ℕ) : Prop :=
  some p ≠ cfg.defaultPortID ∧ ∃ r ∈ ranges p, q.isSubset r = .ok true

/-- The port for a range: its owner, else the default port, whose range must be a superset
when it is used. -/
def Routed (cfg : Params) (ranges : ℕ → List AddrRange) (q : AddrRange) (p : ℕ) : Prop :=
  Owns cfg ranges q p ∨ (∀ p', ¬Owns cfg ranges q p') ∧ cfg.defaultPortID = some p ∧
    (cfg.useDefaultRange = true → ∃ r ∈ ranges p, q.isSubset r = .ok true)

/-- The entry that a query finds leads to the owner. -/
theorem Known.owner_iff (hw : Known cfg w) {q : AddrRange} {res : Option (Node ℕ)}
    (hres : ∀ n, res = some n ↔ n ∈ w.xbar.portMap.tree ∧ q.isSubset n.range = .ok true)
    (p : ℕ) : (∃ n, res = some n ∧ n.value = p) ↔ Owns cfg w.ranges q p := by
  constructor
  · rintro ⟨n, hn, rfl⟩
    obtain ⟨hmem, hsub⟩ := (hres n).mp hn
    obtain ⟨hr, hp⟩ := (hw.entries n.range n.value).mp ⟨n, hmem, rfl, rfl⟩
    exact ⟨hp, n.range, hr, hsub⟩
  · rintro ⟨hp, r, hr, hsub⟩
    obtain ⟨n, hn, rfl, rfl⟩ := (hw.entries r p).mpr ⟨hr, hp⟩
    exact ⟨n, (hres n).mpr ⟨hn, hsub⟩, rfl⟩

/-- **A lookup** changes only the cache. -/
theorem Inv.findPort (hw : Inv cfg w) {q : AddrRange} (ha : Allowed cfg w (.findPort q))
    (h : step cfg w (.findPort q) = .ok w') : Inv cfg w' := by
  obtain ⟨⟨port, x⟩, hfind, h⟩ := bind_eq_ok.mp h
  obtain rfl := Except.ok.inj h
  obtain ⟨_, -, hfind⟩ := bind_eq_ok.mp hfind
  obtain ⟨y, hcontains, hfind⟩ := bind_eq_ok.mp hfind
  obtain ⟨_, -, hfind⟩ := bind_eq_ok.mp hfind
  obtain ⟨-, rfl⟩ := Prod.mk.inj (Except.ok.inj hfind)
  obtain ⟨res, cache, hfound, hlive, -⟩ := contains_spec hw.map cacheSize ha.1 ha.2
  obtain rfl := Except.ok.inj (hfound.symm.trans (ofRange_eq_ok.mp hcontains))
  exact ⟨{ hw.toKnown with map := hw.map.withCache hlive }, hw.defaultKnown, hw.covers⟩

/-- **Where a lookup leads**, once all ports have announced. -/
theorem Inv.findPort_iff (hw : Inv cfg w) (hall : w.xbar.gotAllAddrRanges = true) {q : AddrRange}
    (hq : q.masks = []) (hne : q.start < q.end_) (p : ℕ) :
    (∃ x, w.xbar.findPort cfg q = .ok (p, x)) ↔ Routed cfg w.ranges q p := by
  obtain ⟨res, cache, hfound, -, hres⟩ := contains_spec hw.map cacheSize hq hne
  have hdest : (∃ x, w.xbar.findPort cfg q = .ok (p, x)) ↔
      w.xbar.destination cfg q res = .ok p := by
    constructor
    · rintro ⟨x, h⟩
      obtain ⟨_, -, h⟩ := bind_eq_ok.mp h
      obtain ⟨y, hy, h⟩ := bind_eq_ok.mp h
      obtain rfl := Except.ok.inj (hfound.symm.trans (ofRange_eq_ok.mp hy))
      obtain ⟨port, hport, h⟩ := bind_eq_ok.mp h
      obtain ⟨rfl, -⟩ := Prod.mk.inj (Except.ok.inj h)
      exact hport
    · intro h
      let portMap : AddrRangeMap ℕ := { w.xbar.portMap with cache := cache }
      let x : BaseXBar := { w.xbar with portMap := portMap }
      refine ⟨x, bind_eq_ok.mpr ⟨(), require_ok hall, bind_eq_ok.mpr ⟨(res, portMap), ?_, ?_⟩⟩⟩
      · exact ofRange_eq_ok.mpr hfound
      · exact bind_eq_ok.mpr ⟨p, h, rfl⟩
  have howner := hw.owner_iff hres
  rw [hdest]
  cases res with
  | some n =>
    have hown : Owns cfg w.ranges q n.value := (howner n.value).mp ⟨n, rfl, rfl⟩
    constructor
    · intro h
      exact .inl (Except.ok.inj h ▸ hown)
    · rintro (hp | ⟨hno, -⟩)
      · obtain ⟨n', hn', rfl⟩ := (howner p).mpr hp
        rw [Option.some.inj hn']
        rfl
      · exact absurd hown (hno n.value)
  | none =>
    have hno : ∀ p', ¬Owns cfg w.ranges q p' := fun p' hp' =>
      (((howner p').mpr hp').elim fun n hn => nomatch hn.1)
    have hrest : Routed cfg w.ranges q p ↔ cfg.defaultPortID = some p ∧
        (cfg.useDefaultRange = true → ∃ r ∈ w.ranges p, q.isSubset r = .ok true) :=
      ⟨fun h => (h.resolve_left (hno p)).2, fun h => .inr ⟨hno, h⟩⟩
    rw [hrest]
    unfold BaseXBar.destination
    dsimp only
    by_cases huse : cfg.useDefaultRange = true
    · rw [if_pos huse]
      obtain ⟨d, hd, hlatest⟩ := hw.defaultKnown hall huse
      have hranges : w.ranges d = [w.xbar.defaultRange] := by
        unfold World.ranges
        rw [hlatest]
        rfl
      rcases isSubset_total hq (hw.properDefault huse hlatest) with hsub | hsub
      · rw [hsub, hd]
        constructor
        · intro h
          obtain rfl : d = p := Except.ok.inj h
          exact ⟨rfl, fun _ => ⟨_, hranges ▸ List.mem_singleton_self _, hsub⟩⟩
        · rintro ⟨hdp, -⟩
          exact congrArg Except.ok (Option.some.inj hdp)
      · rw [hsub]
        constructor
        · intro h
          exact nomatch h
        · rintro ⟨hdp, hin⟩
          obtain rfl := Option.some.inj (hd.symm.trans hdp)
          obtain ⟨r, hr, hrsub⟩ := hin huse
          rw [hranges, List.mem_singleton] at hr
          rw [hr, hsub] at hrsub
          cases hrsub
    · rw [if_neg huse, orFail_eq_ok]
      exact ⟨fun h => ⟨h, fun hu => absurd hu huse⟩, And.left⟩

/-- Before that, a lookup fails. -/
theorem findPort_early (hno : w.xbar.gotAllAddrRanges ≠ true) (q : AddrRange) (p : ℕ)
    (x : BaseXBar) : w.xbar.findPort cfg q ≠ .ok (p, x) := by
  intro h
  obtain ⟨_, hreq, -⟩ := bind_eq_ok.mp h
  exact hno (require_eq_ok.mp hreq)

theorem Inv.step (hw : Inv cfg w) {a : Action} (ha : Allowed cfg w a)
    (h : step cfg w a = .ok w') : Inv cfg w' := by
  cases a with
  | rangeChange id ranges => exact hw.rangeChange ha h
  | findPort q => exact hw.findPort ha h

theorem inv_run {as : List Action} (ha : Admitted (Allowed cfg) (step cfg) (start cfg) as)
    (h : run (step cfg) (start cfg) as = .ok w) : Inv cfg w :=
  run_invariant (fun _ _ _ hw ha h => hw.step ha h) (Inv.start cfg) ha h

end Whole

/-- **Crossbars route by the latest announcements.**  After any notifications and lookups
without a failure, `portMap` leads an address to the port, other than the default port, whose
latest ranges contain it; where `findPort` leads is the same after any other notifications
with the same latest announcements, and once every port has announced, it is the port whose
latest range is a superset, or else the default port; and the published ranges then cover
what the latest ranges of all ports contain, those of the default port only if it is used. -/
theorem routes_by_latest (cfg : Params) (as : List Action) (w : World)
    (ha : Admitted (Allowed cfg) (step cfg) (start cfg) as)
    (h : run (step cfg) (start cfg) as = .ok w) :
    (∀ a : Addr, a ≠ BitVec.allOnes 64 →
      ∃ res m', w.xbar.portMap.containsAddr cacheSize a = .ok (res, m') ∧
        ∀ p, (∃ n, res = some n ∧ n.value = p) ↔
          some p ≠ cfg.defaultPortID ∧ Covered (w.ranges p) a) ∧
      (∀ as' w', Admitted (Allowed cfg) (step cfg) (start cfg) as' →
        run (step cfg) (start cfg) as' = .ok w' → w'.latest = w.latest →
          ∀ q : AddrRange, q.masks = [] → q.start < q.end_ → ∀ p,
            (∃ x, w.xbar.findPort cfg q = .ok (p, x)) ↔
              ∃ x, w'.xbar.findPort cfg q = .ok (p, x)) ∧
      ((∀ p < cfg.numPorts, w.latest p ≠ none) → 0 < cfg.numPorts →
        (∀ q : AddrRange, q.masks = [] → q.start < q.end_ → ∀ p,
          (∃ x, w.xbar.findPort cfg q = .ok (p, x)) ↔ Routed cfg w.ranges q p) ∧
        ∀ a, Covered w.xbar.xbarRanges a ↔ ∃ p, Counts cfg p ∧ Covered (w.ranges p) a) := by
  have hw := inv_run ha h
  refine ⟨fun a hmax => ?_, fun as' w' ha' h' hsame q hq hne p => ?_, fun hlatest hpos => ?_⟩
  · have hq : (rangeSize a 1).masks = [] := rfl
    obtain ⟨res, cache, hfound, -, hres⟩ :=
      contains_spec hw.map cacheSize hq (rangeSize_one_nonempty hmax)
    refine ⟨res, _, hfound, fun p => (hw.owner_iff hres p).trans ?_⟩
    refine and_congr_right fun hp => exists_congr fun r => and_congr_right fun hr => ?_
    exact isSubset_iff_contains hmax (hw.valid p (.inr hp) r hr).toProper
  · have hw' := inv_run ha' h'
    have hall : w'.xbar.gotAllAddrRanges = true ↔ w.xbar.gotAllAddrRanges = true := by
      rw [hw.gotAll, hw'.gotAll, hsame]
    have hranges : w'.ranges = w.ranges := by
      unfold World.ranges
      rw [hsame]
    by_cases hgot : w.xbar.gotAllAddrRanges = true
    · rw [hw.findPort_iff hgot hq hne, hw'.findPort_iff (hall.mpr hgot) hq hne, hranges]
    · constructor
      · exact fun ⟨x, hx⟩ => absurd hx (findPort_early hgot q p x)
      · exact fun ⟨x, hx⟩ => absurd hx (findPort_early (mt hall.mp hgot) q p x)
  · have hall : w.xbar.gotAllAddrRanges = true := hw.gotAll.mpr ⟨hpos, hlatest⟩
    exact ⟨fun q hq hne p => hw.findPort_iff hall hq hne p, hw.covers hall⟩

/-- Two ports with a channel each, and a default port that is used. -/
def channelsAndDefault : Params := ⟨3, some 2, true⟩

/-- A port announces twice, and one address is looked up. -/
def announceTwice : List Action :=
  [.rangeChange 1 [⟨16, 32, [8], 1⟩], .rangeChange 0 [⟨16, 32, [8], 0⟩, AddrRange.plain 0 10],
    .rangeChange 2 [AddrRange.plain 100 200], .rangeChange 0 [⟨16, 32, [8], 0⟩],
    .findPort (rangeSize 25 1)]

theorem routes_by_latest_channels :
    ∃ w, run (step channelsAndDefault) (start channelsAndDefault) announceTwice = .ok w ∧
      (∃ x, w.xbar.findPort channelsAndDefault (rangeSize 30 1) = .ok (1, x)) ∧
      (Covered w.xbar.xbarRanges 5 ↔
        ∃ p, Counts channelsAndDefault p ∧ Covered (w.ranges p) 5) := by
  have ha : Admitted (Allowed channelsAndDefault) (step channelsAndDefault)
      (start channelsAndDefault) announceTwice := by
    decide +kernel
  obtain ⟨w, h, hall, hport⟩ : ∃ w,
      run (step channelsAndDefault) (start channelsAndDefault) announceTwice = .ok w ∧
        (∀ p < channelsAndDefault.numPorts, w.latest p ≠ none) ∧
        1 < channelsAndDefault.numPorts ∧ some 1 ≠ channelsAndDefault.defaultPortID ∧
        ∃ r ∈ w.ranges 1, (rangeSize 30 1).isSubset r = .ok true := by
    decide +kernel
  obtain ⟨hfind, hcovers⟩ := (routes_by_latest _ _ w ha h).2.2 hall (by decide)
  exact ⟨w, h, (hfind (rangeSize 30 1) rfl (by decide) 1).mpr (.inl hport.2), hcovers 5⟩

/-- One port, which is the default port. -/
def onlyDefault (useDefaultRange : Bool) : Params := ⟨1, some 0, useDefaultRange⟩

/-- Two ports, and no default port. -/
def twoPorts : Params := ⟨2, none, false⟩

/-- The run ends in a state with this property. -/
def EndsIn (cfg : Params) (as : List Action) (P : World → Prop) : Prop :=
  ∃ w, run (step cfg) (start cfg) as = .ok w ∧ P w

/-- The default port has no entry in the map, and if its range is not used, it is not
published.  An entry behind a plain range in one of its gaps is not found.  And of two ports
that announce the same interleaved range of one address, the first keeps the address. -/
theorem default_port_not_in_map :
    EndsIn (onlyDefault true) [.rangeChange 0 [AddrRange.plain 0 100]] (fun w =>
        Covered (w.ranges 0) 50 ∧
          w.xbar.portMap.containsAddr cacheSize 50 = .ok (none, w.xbar.portMap)) ∧
      EndsIn (onlyDefault false) [.rangeChange 0 [AddrRange.plain 0 100]] (fun w =>
        w.xbar.gotAllAddrRanges = true ∧ Covered (w.ranges 0) 50 ∧ w.xbar.xbarRanges = []) ∧
      EndsIn twoPorts [.rangeChange 0 [AddrRange.plain 5 6], .rangeChange 1 [⟨0, 100, [16], 1⟩]]
        (fun w => Covered (w.ranges 1) 50 ∧
          w.xbar.portMap.containsAddr cacheSize 50 = .ok (none, w.xbar.portMap)) ∧
      EndsIn twoPorts [.rangeChange 0 [⟨0, 2, [1], 1⟩], .rangeChange 1 [⟨0, 2, [1], 1⟩]] (fun w =>
        Covered (w.ranges 0) 1 ∧ Covered (w.ranges 1) 1 ∧
          (w.xbar.findPort twoPorts (rangeSize 1 1)).map Prod.fst = .ok 0) ∧
      EndsIn twoPorts [.rangeChange 1 [⟨0, 2, [1], 1⟩], .rangeChange 0 [⟨0, 2, [1], 1⟩]] (fun w =>
        Covered (w.ranges 0) 1 ∧ Covered (w.ranges 1) 1 ∧
          (w.xbar.findPort twoPorts (rangeSize 1 1)).map Prod.fst = .ok 1) := by
  have hfirst : ∀ {r : AddrRange} {a : Addr}, r.contains a = .ok true → Covered [r] a :=
    fun h => ⟨_, List.mem_cons_self, h⟩
  exact ⟨⟨_, rfl, hfirst rfl, rfl⟩, ⟨_, rfl, rfl, hfirst rfl, rfl⟩, ⟨_, rfl, hfirst rfl, rfl⟩,
    ⟨_, rfl, hfirst rfl, hfirst rfl, rfl⟩, ⟨_, rfl, hfirst rfl, hfirst rfl, rfl⟩⟩

end Gem5.Mem.AddressMap
