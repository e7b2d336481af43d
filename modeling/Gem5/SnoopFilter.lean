/-
# The snoop filter

Embedding of `SnoopFilter` (`mem/snoop_filter.hh`, `mem/snoop_filter.cc`): the map from line
addresses to the ports that have requested or hold the line, the lookups and the updates of the
crossbar, and the undoing of a lookup whose request has to be retried.

The panics and assertions are errors.  Of a packet the model keeps what the filter reads.
-/
import Gem5.Runs

open Runs

namespace Gem5.Mem.Snoop

/-! ## Ports and packets -/

abbrev Addr := BitVec 64

/-- `std::bitset<SNOOP_MASK_SIZE>` -/
abbrev SnoopMask := BitVec 256

/-- A CPU-side port; `getId` is `none` for `InvalidPortID`. -/
structure ResponsePort where
  getId : Option ℕ
  isSnooping : Bool
  deriving DecidableEq, Repr

/-- What the filter reads of a packet and its request. -/
structure Packet where
  getAddr : Addr
  isSecure : Bool := false
  isUncacheable : Bool := false
  isCacheMaintenance : Bool := false
  isRequest : Bool := false
  isResponse : Bool := false
  fromCache : Bool := false
  needsResponse : Bool := false
  needsWritable : Bool := false
  isInvalidate : Bool := false
  isEviction : Bool := false
  hasData : Bool := false
  cacheResponding : Bool := false
  hasSharers : Bool := false
  isBlockCached : Bool := false
  isBlockIO : Bool := false
  isPrefetchHintPkt : Bool := false
  ddioPrefetchDestination : ℤ := -1
  deriving DecidableEq, Repr

/-- `MemCmd::isWriteback` -/
def Packet.isWriteback (cpkt : Packet) : Bool := cpkt.isEviction && cpkt.hasData

/-- The ports that have requested a line, and those that hold it. -/
structure SnoopItem where
  requested : SnoopMask := 0
  holder : SnoopMask := 0
  deriving DecidableEq, Repr

/-- The panics and assertions, the range of `localResponsePortIds`, and an iterator to an entry that
is gone. -/
inductive SnoopFail where
  | invalidPortID
  | portOutOfRange
  | doubleRequest
  | needToHold
  | notEviction
  | requesterNotHolder
  | otherLine
  | dangling
  | notRequest
  | exceededCapacity
  | invalidateNotWritable
  | notResponse
  | notCacheResponding
  | doesNotHaveLine
  | missingRequest
  | isWriteback
  | nullEntry
  | tooManyPorts
  deriving DecidableEq, Repr

/-! ## The filter -/

/-- The unordered map of the tracked lines. -/
abbrev SnoopFilterCache := Finmap fun _ : Addr => SnoopItem

/-- The parameters of the filter, and its ports.  `localResponsePortIds` has `none` for
`InvalidPortID`. -/
structure Params where
  isForL3X : Bool := false
  linesize : BitVec 32
  maxEntryCount : BitVec 32
  cpuSidePorts : List ResponsePort
  localResponsePortIds : List (Option ℕ)

/-- `ReqLookupResult`: the line of the iterator, `none` at the end of the map, and the entry to go
back to. -/
structure ReqLookupResult where
  it : Option Addr := none
  retryItem : SnoopItem := {}
  deriving DecidableEq, Repr

structure SnoopFilter where
  cachedLocations : SnoopFilterCache := ∅
  reqLookupResult : ReqLookupResult := {}

/-- The address of a line, whose lowest bit says whether it is secure. -/
def Params.lineAddr (p : Params) (addr : Addr) (isSecure : Bool) : Addr :=
  let line_addr := addr &&& ~~~((p.linesize - 1).setWidth 64)
  if isSecure then line_addr ||| 1 else line_addr

/-- The line of a packet. -/
def Params.lineOf (p : Params) (cpkt : Packet) : Addr := p.lineAddr cpkt.getAddr cpkt.isSecure

/-- `portToMask(port)`: a shift by `InvalidPortID` leaves nothing. -/
def Params.portToMask (p : Params) (port : ResponsePort) : Except SnoopFail SnoopMask := do
  let id ← orFail .invalidPortID port.getId
  if !port.isSnooping then return 0
  else
    let localId ← orFail .portOutOfRange p.localResponsePortIds[id]?
    return localId.elim 0 fun n => 1 <<< n

/-- `maskToPortList(ports)` -/
def Params.maskToPortList (p : Params) (portMask : SnoopMask) :
    Except SnoopFail (List ResponsePort) :=
  p.cpuSidePorts.filterM fun port => do
    let mask ← p.portToMask port
    return decide (portMask &&& mask ≠ 0)

/-- `eraseIfNullEntry(sf_it)` -/
def eraseIfNullEntry (cachedLocations : SnoopFilterCache) (line : Addr) :
    Except SnoopFail SnoopFilterCache := do
  let sf_item ← orFail .dangling (cachedLocations.lookup line)
  if sf_item.requested ||| sf_item.holder = 0 then return cachedLocations.erase line
  else return cachedLocations

/-! ## Requests -/

/-- The mask of the cache that a prefetch hint goes to. -/
def Params.destMask (p : Params) (cpkt : Packet) : SnoopMask :=
  if cpkt.isPrefetchHintPkt && p.isForL3X then
    let dest := cpkt.ddioPrefetchDestination
    if dest > -1 then 1 <<< dest.toNat else 0
  else 0

/-- The second half of `lookupRequest`: what a request does to the entry. -/
def trackRequest (allocate : Bool) (cpkt : Packet) (req_port : SnoopMask) (sf_item : SnoopItem) :
    Except SnoopFail SnoopItem :=
  -- without an allocation that is all
  if !allocate then .ok sf_item
  else if cpkt.needsResponse then
    if !cpkt.cacheResponding then do
      -- max one request per address per port
      require .doubleRequest (decide (sf_item.requested &&& req_port = 0))
      return { sf_item with requested := sf_item.requested ||| req_port }
    else do
      -- the response will not be seen by this filter
      require .needToHold (decide (sf_item.holder &&& req_port ≠ 0))
      return sf_item
  else do
    require .notEviction cpkt.isEviction
    require .requesterNotHolder
      (!(decide (sf_item.holder &&& req_port = 0) && !cpkt.isBlockIO))
    if !cpkt.isBlockCached then
      return { sf_item with holder := sf_item.holder &&& ~~~req_port }
    else return sf_item

/-- `lookupRequest(cpkt, cpu_side_port)` -/
def lookupRequest (p : Params) (s : SnoopFilter) (cpkt : Packet) (cpu_side_port : ResponsePort) :
    Except SnoopFail (SnoopFilter × List ResponsePort) := do
  let allocate := !cpkt.isUncacheable && cpu_side_port.isSnooping && cpkt.fromCache
  let line_addr := p.lineOf cpkt
  let req_port ← p.portToMask cpu_side_port
  let hit := s.cachedLocations.lookup line_addr
  if hit.isNone && !allocate then
    return ({ s with reqLookupResult := { s.reqLookupResult with it := none } }, [])
  else
    -- a new entry is empty
    let sf_item := hit.getD {}
    let destMask := p.destMask cpkt
    let interested := sf_item.holder ||| sf_item.requested ||| destMask
    let sf_item' ← trackRequest allocate cpkt req_port sf_item
    let ports ← p.maskToPortList ((interested &&& ~~~req_port) ||| destMask)
    return ({ cachedLocations := s.cachedLocations.insert line_addr sf_item'
              reqLookupResult := { it := some line_addr, retryItem := sf_item } }, ports)

/-- `finishRequest(will_retry, addr, is_secure)` -/
def finishRequest (p : Params) (s : SnoopFilter) (will_retry : Bool) (addr : Addr)
    (is_secure : Bool) : Except SnoopFail SnoopFilter :=
  match s.reqLookupResult.it with
  | none => .ok s
  | some it => do
    require .otherLine (decide (it = p.lineAddr addr is_secure))
    let cachedLocations :=
      if will_retry then s.cachedLocations.insert it s.reqLookupResult.retryItem
      else s.cachedLocations
    let cachedLocations ← eraseIfNullEntry cachedLocations it
    return { s with cachedLocations := cachedLocations }

/-! ## Snoops and responses -/

/-- `lookupSnoop(cpkt)` -/
def lookupSnoop (p : Params) (s : SnoopFilter) (cpkt : Packet) :
    Except SnoopFail (SnoopFilter × List ResponsePort) := do
  require .notRequest cpkt.isRequest
  let line_addr := p.lineOf cpkt
  match s.cachedLocations.lookup line_addr with
  | none =>
    require .exceededCapacity
      (!decide (s.cachedLocations.keys.card ≥ p.maxEntryCount.toNat))
    return (s, [])
  | some sf_item =>
    let interested := sf_item.holder ||| sf_item.requested
    require .invalidateNotWritable (cpkt.isWriteback || cpkt.isUncacheable ||
      cpkt.isInvalidate == cpkt.needsWritable || cpkt.isCacheMaintenance)
    let cachedLocations ←
      if cpkt.isInvalidate && decide (sf_item.requested = 0) then
        -- early clear of the holder
        eraseIfNullEntry (s.cachedLocations.insert line_addr { sf_item with holder := 0 }) line_addr
      else pure s.cachedLocations
    let ports ← p.maskToPortList interested
    return ({ s with cachedLocations := cachedLocations }, ports)

/-- `updateSnoopResponse(cpkt, rsp_port, req_port)` -/
def updateSnoopResponse (p : Params) (s : SnoopFilter) (cpkt : Packet)
    (rsp_port req_port : ResponsePort) : Except SnoopFail SnoopFilter := do
  require .notResponse cpkt.isResponse
  require .notCacheResponding cpkt.cacheResponding
  if cpkt.isUncacheable || !req_port.isSnooping then return s
  else
    let line_addr := p.lineOf cpkt
    let rsp_mask ← p.portToMask rsp_port
    let req_mask ← p.portToMask req_port
    let sf_item := (s.cachedLocations.lookup line_addr).getD {}
    require .doesNotHaveLine (decide (sf_item.holder &&& rsp_mask ≠ 0))
    require .missingRequest (decide (sf_item.requested &&& req_mask ≠ 0))
    let holder := if !cpkt.hasSharers then 0 else sf_item.holder
    require .isWriteback (!cpkt.isWriteback)
    let sf_item : SnoopItem :=
      { holder := holder ||| req_mask, requested := sf_item.requested &&& ~~~req_mask }
    require .nullEntry (decide (sf_item.requested ||| sf_item.holder ≠ 0))
    return { s with cachedLocations := s.cachedLocations.insert line_addr sf_item }

/-- `updateSnoopForward(cpkt, rsp_port, req_port)`, which asks nothing of the ports. -/
def updateSnoopForward (p : Params) (s : SnoopFilter) (cpkt : Packet) :
    Except SnoopFail SnoopFilter := do
  require .notResponse cpkt.isResponse
  require .notCacheResponding cpkt.cacheResponding
  let line_addr := p.lineOf cpkt
  match s.cachedLocations.lookup line_addr with
  | none => return s
  | some sf_item =>
    if !cpkt.hasSharers then
      let cachedLocations ←
        eraseIfNullEntry (s.cachedLocations.insert line_addr { sf_item with holder := 0 }) line_addr
      return { s with cachedLocations := cachedLocations }
    else return s

/-- `updateResponse(cpkt, cpu_side_port)` -/
def updateResponse (p : Params) (s : SnoopFilter) (cpkt : Packet) (cpu_side_port : ResponsePort) :
    Except SnoopFail SnoopFilter := do
  require .notResponse cpkt.isResponse
  if cpkt.isUncacheable || !cpu_side_port.isSnooping then return s
  else
    let line_addr := p.lineOf cpkt
    match s.cachedLocations.lookup line_addr with
    | none => return s
    | some sf_item =>
      let response_mask ← p.portToMask cpu_side_port
      -- make sure the actual request has been seen, too
      require .missingRequest (decide (sf_item.requested &&& response_mask ≠ 0))
      let sf_item := { sf_item with requested := sf_item.requested &&& ~~~response_mask }
      if cpkt.isCacheMaintenance then
        let sf_item :=
          if cpkt.isInvalidate then
            { sf_item with holder := sf_item.holder &&& ~~~response_mask }
          else sf_item
        let cachedLocations ←
          eraseIfNullEntry (s.cachedLocations.insert line_addr sf_item) line_addr
        return { s with cachedLocations := cachedLocations }
      else
        let sf_item := { sf_item with holder := sf_item.holder ||| response_mask }
        require .nullEntry (decide (sf_item.holder ||| sf_item.requested ≠ 0))
        return { s with cachedLocations := s.cachedLocations.insert line_addr sf_item }

/-! ## Null entries -/

/-- No line is tracked that has neither been requested nor is held. -/
def NoNull (cachedLocations : SnoopFilterCache) : Prop :=
  ∀ line sf_item, cachedLocations.lookup line = some sf_item →
    sf_item.requested ||| sf_item.holder ≠ 0

/-- The map with an entry that is left out if it is null. -/
def settle (cachedLocations : SnoopFilterCache) (line : Addr) (sf_item : SnoopItem) :
    SnoopFilterCache :=
  if sf_item.requested ||| sf_item.holder = 0 then cachedLocations.erase line
  else cachedLocations.insert line sf_item

section NoNull

variable {m : SnoopFilterCache} {line : Addr} {sf_item : SnoopItem}

theorem NoNull.insert (h : NoNull m) (hitem : sf_item.requested ||| sf_item.holder ≠ 0) :
    NoNull (m.insert line sf_item) := by
  intro other item hlookup
  rcases eq_or_ne other line with rfl | hne
  · rw [Finmap.lookup_insert, Option.some_inj] at hlookup
    exact hlookup ▸ hitem
  · rw [Finmap.lookup_insert_of_ne m hne] at hlookup
    exact h other item hlookup

theorem NoNull.erase (h : NoNull m) : NoNull (m.erase line) := by
  intro other item hlookup
  rcases eq_or_ne other line with rfl | hne
  · rw [Finmap.lookup_erase] at hlookup
    cases hlookup
  · rw [Finmap.lookup_erase_ne hne] at hlookup
    exact h other item hlookup

theorem NoNull.settle (h : NoNull m) : NoNull (settle m line sf_item) := by
  unfold Snoop.settle
  split_ifs with hnull
  · exact h.erase
  · exact h.insert hnull

/-- An entry that has just been written is erased if it is null. -/
theorem eraseIfNullEntry_insert :
    eraseIfNullEntry (m.insert line sf_item) line = .ok (settle m line sf_item) := by
  have herase : (m.insert line sf_item).erase line = m.erase line := by
    refine Finmap.ext_lookup fun other => ?_
    rcases eq_or_ne other line with rfl | hne
    · rw [Finmap.lookup_erase, Finmap.lookup_erase]
    · rw [Finmap.lookup_erase_ne hne, Finmap.lookup_erase_ne hne, Finmap.lookup_insert_of_ne m hne]
  unfold eraseIfNullEntry settle
  rw [Finmap.lookup_insert, orFail_eq_ok.mpr rfl, herase]
  exact (apply_ite Except.ok _ _ _).symm

/-- The entry of a line as it was, or an empty one if there was none, gives the map as it was. -/
theorem NoNull.settle_getD (h : NoNull m) : Snoop.settle m line ((m.lookup line).getD {}) = m := by
  unfold Snoop.settle
  refine Finmap.ext_lookup fun other => ?_
  cases hhit : m.lookup line with
  | none =>
    rw [Option.getD_none, if_pos (by decide)]
    rcases eq_or_ne other line with rfl | hne
    · rw [Finmap.lookup_erase, hhit]
    · rw [Finmap.lookup_erase_ne hne]
  | some item =>
    rw [Option.getD_some, if_neg (h line item hhit)]
    rcases eq_or_ne other line with rfl | hne
    · rw [Finmap.lookup_insert, hhit]
    · rw [Finmap.lookup_insert_of_ne m hne]

end NoNull

/-! ## Lookups and their undoing -/

section Operations

variable {p : Params} {s s' : SnoopFilter} {cpkt : Packet} {cpu_side_port : ResponsePort}
  {ports : List ResponsePort}

/-- **What `lookupRequest` does**: nothing to the map if it notes no line, and else it changes only
the entry of the packet's line, which it notes as it was. -/
theorem lookupRequest_cases (h : lookupRequest p s cpkt cpu_side_port = .ok (s', ports)) :
    (s'.reqLookupResult.it = none ∧ s'.cachedLocations = s.cachedLocations) ∨
      ∃ sf_item, s' = ⟨s.cachedLocations.insert (p.lineOf cpkt) sf_item,
        some (p.lineOf cpkt), (s.cachedLocations.lookup (p.lineOf cpkt)).getD {}⟩ := by
  unfold lookupRequest at h
  obtain ⟨req_port, -, h⟩ := bind_eq_ok.mp h
  dsimp only at h
  split_ifs at h
  · cases h
    exact .inl ⟨rfl, rfl⟩
  · obtain ⟨sf_item, -, h⟩ := bind_eq_ok.mp h
    obtain ⟨ports, -, h⟩ := bind_eq_ok.mp h
    cases h
    exact .inr ⟨sf_item, rfl⟩

theorem finishRequest_none (h : s.reqLookupResult.it = none) (will_retry : Bool) (addr : Addr)
    (is_secure : Bool) : finishRequest p s will_retry addr is_secure = .ok s := by
  unfold finishRequest
  rw [h]

/-- `finishRequest` after a lookup leaves the noted entry, or the one that the lookup made. -/
theorem finishRequest_noted (p : Params) (m : SnoopFilterCache) (item item' : SnoopItem)
    (will_retry : Bool) (addr : Addr) (is_secure : Bool) :
    finishRequest p ⟨m.insert (p.lineAddr addr is_secure) item',
        some (p.lineAddr addr is_secure), item⟩ will_retry addr is_secure
      = .ok ⟨settle m (p.lineAddr addr is_secure) (if will_retry then item else item'),
        some (p.lineAddr addr is_secure), item⟩ := by
  refine bind_eq_ok.mpr ⟨(), require_ok (decide_eq_true rfl), ?_⟩
  cases will_retry with
  | false => exact bind_eq_ok.mpr ⟨_, eraseIfNullEntry_insert, rfl⟩
  | true =>
    refine bind_eq_ok.mpr ⟨_, ?_, rfl⟩
    simp only [if_true, Finmap.insert_insert]
    exact eraseIfNullEntry_insert

theorem lookupSnoop_noNull (hs : NoNull s.cachedLocations)
    (h : lookupSnoop p s cpkt = .ok (s', ports)) : NoNull s'.cachedLocations := by
  unfold lookupSnoop at h
  obtain ⟨-, -, h⟩ := bind_eq_ok.mp h
  dsimp only at h
  cases hhit : s.cachedLocations.lookup (p.lineOf cpkt) with
  | none =>
    rw [hhit] at h
    obtain ⟨-, -, h⟩ := bind_eq_ok.mp h
    cases h
    exact hs
  | some sf_item =>
    rw [hhit] at h
    obtain ⟨-, -, h⟩ := bind_eq_ok.mp h
    split_ifs at h
    · obtain ⟨locations, hclear, h⟩ := bind_eq_ok.mp h
      obtain ⟨ports, -, h⟩ := bind_eq_ok.mp h
      cases h
      rw [eraseIfNullEntry_insert] at hclear
      cases hclear
      exact hs.settle
    · obtain ⟨locations, hclear, h⟩ := bind_eq_ok.mp h
      obtain ⟨ports, -, h⟩ := bind_eq_ok.mp h
      cases h
      cases hclear
      exact hs

theorem updateSnoopResponse_noNull {rsp_port req_port : ResponsePort}
    (hs : NoNull s.cachedLocations) (h : updateSnoopResponse p s cpkt rsp_port req_port = .ok s') :
    NoNull s'.cachedLocations := by
  unfold updateSnoopResponse at h
  obtain ⟨-, -, h⟩ := bind_eq_ok.mp h
  obtain ⟨-, -, h⟩ := bind_eq_ok.mp h
  dsimp only at h
  split_ifs at h
  · cases h
    exact hs
  all_goals
    obtain ⟨rsp_mask, -, h⟩ := bind_eq_ok.mp h
    obtain ⟨req_mask, -, h⟩ := bind_eq_ok.mp h
    obtain ⟨-, -, h⟩ := bind_eq_ok.mp h
    obtain ⟨-, -, h⟩ := bind_eq_ok.mp h
    obtain ⟨-, -, h⟩ := bind_eq_ok.mp h
    obtain ⟨_, hnull, h⟩ := bind_eq_ok.mp h
    cases h
    exact hs.insert (of_decide_eq_true (require_eq_ok.mp hnull))

theorem updateSnoopForward_noNull (hs : NoNull s.cachedLocations)
    (h : updateSnoopForward p s cpkt = .ok s') : NoNull s'.cachedLocations := by
  unfold updateSnoopForward at h
  obtain ⟨-, -, h⟩ := bind_eq_ok.mp h
  obtain ⟨-, -, h⟩ := bind_eq_ok.mp h
  dsimp only at h
  cases hhit : s.cachedLocations.lookup (p.lineOf cpkt) with
  | none =>
    rw [hhit] at h
    cases h
    exact hs
  | some sf_item =>
    rw [hhit] at h
    dsimp only at h
    split_ifs at h
    · rw [eraseIfNullEntry_insert] at h
      cases h
      exact hs.settle
    · cases h
      exact hs

theorem updateResponse_noNull (hs : NoNull s.cachedLocations)
    (h : updateResponse p s cpkt cpu_side_port = .ok s') : NoNull s'.cachedLocations := by
  unfold updateResponse at h
  obtain ⟨-, -, h⟩ := bind_eq_ok.mp h
  cases hskip : cpkt.isUncacheable || !cpu_side_port.isSnooping with
  | true =>
    rw [hskip, if_pos rfl] at h
    cases h
    exact hs
  | false =>
    rw [hskip, if_neg Bool.false_ne_true] at h
    cases hhit : s.cachedLocations.lookup (p.lineOf cpkt) with
    | none =>
      simp only [hhit] at h
      cases h
      exact hs
    | some sf_item =>
      simp only [hhit] at h
      obtain ⟨response_mask, -, h⟩ := bind_eq_ok.mp h
      obtain ⟨-, -, h⟩ := bind_eq_ok.mp h
      cases hmaintenance : cpkt.isCacheMaintenance with
      | true =>
        rw [hmaintenance, if_pos rfl, eraseIfNullEntry_insert] at h
        cases h
        exact hs.settle
      | false =>
        rw [hmaintenance, if_neg Bool.false_ne_true] at h
        obtain ⟨_, hnull, h⟩ := bind_eq_ok.mp h
        cases h
        have hany := of_decide_eq_true (require_eq_ok.mp hnull)
        exact hs.insert (by rwa [BitVec.or_comm])

end Operations

/-- **A retry is atomic, and no update leaves a null entry.** -/
theorem retry_atomic (p : Params) (s : SnoopFilter) (hs : NoNull s.cachedLocations)
    (cpkt : Packet) (port port' : ResponsePort) :
    (∀ s' ports, lookupRequest p s cpkt port = .ok (s', ports) →
      ∃ s'', finishRequest p s' true cpkt.getAddr cpkt.isSecure = .ok s'' ∧
        s''.cachedLocations = s.cachedLocations) ∧
    (∀ s' ports, lookupRequest p s cpkt port = .ok (s', ports) →
      ∃ s'', finishRequest p s' false cpkt.getAddr cpkt.isSecure = .ok s'' ∧
        NoNull s''.cachedLocations) ∧
    (∀ s', updateResponse p s cpkt port = .ok s' → NoNull s'.cachedLocations) ∧
    (∀ s' ports, lookupSnoop p s cpkt = .ok (s', ports) → NoNull s'.cachedLocations) ∧
    (∀ s', updateSnoopResponse p s cpkt port port' = .ok s' → NoNull s'.cachedLocations) ∧
    (∀ s', updateSnoopForward p s cpkt = .ok s' → NoNull s'.cachedLocations) := by
  refine ⟨fun s' ports h => ?_, fun s' ports h => ?_, fun s' => updateResponse_noNull hs,
    fun s' ports => lookupSnoop_noNull hs, fun s' => updateSnoopResponse_noNull hs,
    fun s' => updateSnoopForward_noNull hs⟩
  · rcases lookupRequest_cases h with ⟨hit, hsame⟩ | ⟨sf_item, rfl⟩
    · exact ⟨s', finishRequest_none hit true _ _, hsame⟩
    · exact ⟨_, finishRequest_noted p _ _ sf_item true _ _, hs.settle_getD⟩
  · rcases lookupRequest_cases h with ⟨hit, hsame⟩ | ⟨sf_item, rfl⟩
    · exact ⟨s', finishRequest_none hit false _ _, hsame ▸ hs⟩
    · exact ⟨_, finishRequest_noted p _ _ sf_item false _ _, hs.settle⟩

/-- A filter with two ports. -/
def twoPorts : Params :=
  { linesize := 64, maxEntryCount := 16, cpuSidePorts := [⟨some 0, true⟩, ⟨some 1, true⟩],
    localResponsePortIds := [some 0, some 1] }

/-- A read of a cache, at address 72. -/
def readOf72 : Packet :=
  { getAddr := 72, isRequest := true, fromCache := true, needsResponse := true }

/-- A read from the second port, of a line that the first one holds. -/
theorem retry_atomic_read :
    let s : SnoopFilter := { cachedLocations := (∅ : SnoopFilterCache).insert 64 ⟨0, 1⟩ }
    ∃ s' s'', lookupRequest twoPorts s readOf72 ⟨some 1, true⟩ = .ok (s', [⟨some 0, true⟩]) ∧
      finishRequest twoPorts s' true readOf72.getAddr readOf72.isSecure = .ok s'' ∧
      s''.cachedLocations = s.cachedLocations := by
  intro s
  have hs : NoNull s.cachedLocations := NoNull.insert (fun line item h => by cases h) (by decide)
  have hhit : s.cachedLocations.lookup (64 : Addr) = some ⟨0, 1⟩ := Finmap.lookup_insert _
  have hline : twoPorts.lineOf readOf72 = 64 := by decide
  have hmask : twoPorts.portToMask ⟨some 1, true⟩ = .ok 2 := rfl
  have htrack : trackRequest true readOf72 2 ⟨0, 1⟩ = .ok ⟨2, 1⟩ := rfl
  have hports : twoPorts.maskToPortList 1 = .ok [⟨some 0, true⟩] := rfl
  have hlookup : lookupRequest twoPorts s readOf72 ⟨some 1, true⟩
      = .ok (⟨s.cachedLocations.insert 64 ⟨2, 1⟩, ⟨some 64, ⟨0, 1⟩⟩⟩, [⟨some 0, true⟩]) := by
    unfold lookupRequest
    rw [hmask, hline]
    refine bind_eq_ok.mpr ⟨2, rfl, ?_⟩
    dsimp only
    rw [hhit]
    exact bind_eq_ok.mpr ⟨⟨2, 1⟩, htrack, bind_eq_ok.mpr ⟨_, hports, rfl⟩⟩
  obtain ⟨s'', hok, hsame⟩ :=
    (retry_atomic twoPorts s hs readOf72 ⟨some 1, true⟩ ⟨some 0, true⟩).1 _ _ hlookup
  exact ⟨_, s'', hlookup, hok, hsame⟩

end Gem5.Mem.Snoop
