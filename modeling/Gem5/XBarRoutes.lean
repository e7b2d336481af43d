/-
# The address map of a crossbar

Embedding of `BaseXBar::recvRangeChange` and `BaseXBar::findPort` (`mem/xbar.cc`): the
memory-side ports announce the ranges they respond to, the crossbar keeps them in
`portMap`, and publishes their union once every port has announced.  The default port has
no entries in the map; its range is checked after the map, or it takes what is left.
-/
import Gem5.RangeLookup

open Runs

namespace Gem5.Mem.AddressMap

open Base

/-! ## The crossbar -/

/-- The memory-side ports, and how the default port is used. -/
structure Params where
  numPorts : ℕ
  defaultPortID : Option ℕ
  useDefaultRange : Bool
  deriving DecidableEq, Repr

/-- The part of `BaseXBar` that knows the ranges. -/
structure BaseXBar where
  portMap : AddrRangeMap ℕ
  gotAddrRanges : List Bool
  gotAllAddrRanges : Bool
  defaultRange : AddrRange
  xbarRanges : List AddrRange

/-- What stops the functions of the crossbar. -/
inductive Fault where
  /-- a failure of the range functions -/
  | range (e : Fail)
  /-- `fatal("%s has two ports responding within range %s")` -/
  | twoPorts
  /-- `fatal("Crossbar %s may only have a single default range")` -/
  | manyDefaultRanges
  /-- `fatal("Crossbar %s uses default range, but none provided")` -/
  | noDefaultRange
  /-- `fatal("Range %s intersects the default range of %s but is not a subset")` -/
  | notASubset
  /-- `assert(gotAllAddrRanges)` -/
  | notAllRanges
  /-- `fatal("Unable to find destination for %s on %s")` -/
  | noDestination
  deriving DecidableEq, Repr

/-- A failure of the range functions stops the crossbar. -/
def ofRange {α : Type} : Except Fail α → Except Fault α := Except.mapError .range

/-- `max_cache_size` of `portMap` -/
def cacheSize : ℕ := 3

/-- A crossbar with `cfg.numPorts` ports that have not announced anything. -/
def BaseXBar.create (cfg : Params) : BaseXBar where
  portMap := .empty
  gotAddrRanges := List.replicate cfg.numPorts false
  gotAllAddrRanges := false
  defaultRange := .empty
  xbarRanges := []

/-! ## `findPort` -/

/-- The port for an entry that was found, or for none. -/
def BaseXBar.destination (x : BaseXBar) (cfg : Params) (addr_range : AddrRange) :
    Option (Node ℕ) → Except Fault ℕ
  | some i => .ok i.value
  | none =>
      if cfg.useDefaultRange then do
        let inside ← ofRange (addr_range.isSubset x.defaultRange)
        if inside then orFail .noDestination cfg.defaultPortID else .error .noDestination
      else orFail .noDestination cfg.defaultPortID

/-- `findPort` -/
def BaseXBar.findPort (x : BaseXBar) (cfg : Params) (addr_range : AddrRange) :
    Except Fault (ℕ × BaseXBar) := do
  require .notAllRanges x.gotAllAddrRanges
  let (found, portMap) ← ofRange (x.portMap.contains cacheSize addr_range)
  let port ← x.destination cfg addr_range found
  return (port, { x with portMap := portMap })

/-! ## New ranges of a port -/

/-- Erase the entry of a node if it belongs to the port. -/
def eraseNode (id : ℕ) (portMap : AddrRangeMap ℕ) (n : Node ℕ) : Except Fail (AddrRangeMap ℕ) :=
  if n.value = id then portMap.erase n.id else .ok portMap

/-- The loop that removes the entries of a port. -/
def erasePort (portMap : AddrRangeMap ℕ) (id : ℕ) : Except Fail (AddrRangeMap ℕ) :=
  portMap.tree.foldlM (eraseNode id) portMap

/-- The body of the loop that adds the ranges of a port: `insert` returns `end()` when an
entry intersects. -/
def insertRange (id : ℕ) (portMap : AddrRangeMap ℕ) (r : AddrRange) :
    Except Fault (AddrRangeMap ℕ) := do
  let (found, portMap') ← ofRange (portMap.intersects cacheSize r)
  require .twoPorts found.isNone
  return portMap'.treeInsert r id

/-- The new ranges of the default port. -/
def BaseXBar.setDefault (x : BaseXBar) (cfg : Params) (ranges : List AddrRange) :
    Except Fault BaseXBar :=
  if cfg.useDefaultRange then do
    require .manyDefaultRanges (ranges.length = 1)
    return { x with defaultRange := ranges.headD .empty }
  else .ok x

/-- The new ranges of another port. -/
def BaseXBar.setRanges (x : BaseXBar) (id : ℕ) (ranges : List AddrRange) :
    Except Fault BaseXBar := do
  let erased ← ofRange (erasePort x.portMap id)
  let portMap ← ranges.foldlM (insertRange id) erased
  return { x with portMap := portMap }

/-! ## The published ranges -/

/-- Add a range, unless it lies inside the default range. -/
def BaseXBar.publish (x : BaseXBar) (cfg : Params) (out : List AddrRange) (r : AddrRange) :
    Except Fault (List AddrRange) :=
  if cfg.useDefaultRange then do
    let inside ← ofRange (r.isSubset x.defaultRange)
    return if inside then out else out ++ [r]
  else .ok (out ++ [r])

/-- Merge the interleaved ranges that were collected, and add the result. -/
def BaseXBar.mergeGroup (x : BaseXBar) (cfg : Params) (out intlv_ranges : List AddrRange) :
    Except Fault (List AddrRange) := do
  let merged_range ← ofRange (AddrRange.ofRanges intlv_ranges)
  x.publish cfg out merged_range

/-- An interleaved range joins the collected ones, which are merged first if it does not
belong to them. -/
def BaseXBar.collect (x : BaseXBar) (cfg : Params) (out intlv_ranges : List AddrRange)
    (r : AddrRange) : Except Fault (List AddrRange × List AddrRange) :=
  match intlv_ranges.getLast? with
  | some back =>
      if back.mergesWith r then .ok (out, intlv_ranges ++ [r])
      else do
        let out' ← x.mergeGroup cfg out intlv_ranges
        return (out', [r])
  | none => .ok (out, [r])

/-- One round of the loop over `portMap`. -/
def BaseXBar.aggregateOne (x : BaseXBar) (cfg : Params)
    (acc : List AddrRange × List AddrRange) (r : AddrRange) :
    Except Fault (List AddrRange × List AddrRange) :=
  if r.interleaved then x.collect cfg acc.1 acc.2 r
  else do
    let out ← x.publish cfg acc.1 r
    return (out, acc.2)

/-- The ranges that are still waiting to be merged. -/
def BaseXBar.mergeRest (x : BaseXBar) (cfg : Params) (acc : List AddrRange × List AddrRange) :
    Except Fault (List AddrRange) :=
  if acc.2 = [] then .ok acc.1 else x.mergeGroup cfg acc.1 acc.2

/-- The default range comes first. -/
def BaseXBar.firstRanges (x : BaseXBar) (cfg : Params) : Except Fault (List AddrRange) :=
  if cfg.useDefaultRange then do
    let id ← orFail .noDefaultRange cfg.defaultPortID
    require .noDefaultRange (x.gotAddrRanges[id]? = some true)
    return [x.defaultRange]
  else .ok []

/-- The check of one published range against the default range. -/
def BaseXBar.checkRange (x : BaseXBar) (r : AddrRange) : Except Fault Unit := do
  let overlaps ← ofRange (r.intersects x.defaultRange)
  if overlaps then do
    let inside ← ofRange (r.isSubset x.defaultRange)
    require .notASubset inside
  else .ok ()

/-- The published ranges. -/
def BaseXBar.aggregate (x : BaseXBar) (cfg : Params) : Except Fault (List AddrRange) := do
  let first ← x.firstRanges cfg
  let acc ← (x.portMap.tree.map Node.range).foldlM (x.aggregateOne cfg) (first, [])
  let xbarRanges ← x.mergeRest cfg acc
  if cfg.useDefaultRange then do
    xbarRanges.forM x.checkRange
    return xbarRanges
  else return xbarRanges

/-! ## `recvRangeChange` -/

/-- Remember that the port announced ranges. -/
def BaseXBar.gotRanges (x : BaseXBar) (id : ℕ) : BaseXBar :=
  let got := x.gotAddrRanges.set id true
  { x with gotAddrRanges := got, gotAllAddrRanges := x.gotAllAddrRanges || got.all (· = true) }

/-- The new ranges of the port, default or not. -/
def BaseXBar.newRanges (x : BaseXBar) (cfg : Params) (id : ℕ) (ranges : List AddrRange) :
    Except Fault BaseXBar :=
  if some id = cfg.defaultPortID then x.setDefault cfg ranges else x.setRanges id ranges

/-- Publish the ranges if all are known. -/
def BaseXBar.republish (x : BaseXBar) (cfg : Params) : Except Fault BaseXBar :=
  if x.gotAllAddrRanges then do
    let xbarRanges ← x.aggregate cfg
    return { x with xbarRanges := xbarRanges }
  else .ok x

/-- `recvRangeChange`, with what `getAddrRanges` of the port returns. -/
def BaseXBar.recvRangeChange (x : BaseXBar) (cfg : Params) (id : ℕ) (ranges : List AddrRange) :
    Except Fault BaseXBar := do
  let x' ← (x.gotRanges id).newRanges cfg id ranges
  x'.republish cfg

/-! ## The crossbar and its ports -/

/-- The crossbar, and what each port announced last. -/
structure World where
  xbar : BaseXBar
  latest : ℕ → Option (List AddrRange)

/-- Nothing was announced. -/
def start (cfg : Params) : World := ⟨.create cfg, fun _ => none⟩

/-- The latest ranges of a port. -/
def World.ranges (w : World) (p : ℕ) : List AddrRange := (w.latest p).getD []

/-- A notification of a port, or a lookup for a packet. -/
inductive Action where
  | rangeChange (id : ℕ) (ranges : List AddrRange)
  | findPort (addr_range : AddrRange)
  deriving DecidableEq, Repr

/-- One step. -/
def step (cfg : Params) (w : World) : Action → Except Fault World
  | .rangeChange id ranges => do
      let x ← w.xbar.recvRangeChange cfg id ranges
      return ⟨x, Function.update w.latest id (some ranges)⟩
  | .findPort addr_range => do
      let (_, x) ← w.xbar.findPort cfg addr_range
      return { w with xbar := x }

/-- A range whose lookups and comparisons are defined: proper, and if it is interleaved, of
more than one address. -/
structure Valid (r : AddrRange) : Prop extends Proper r where
  several : r.masks ≠ [] → (r.end_ - r.start) >>> r.masks.length ≠ 1

instance (r : AddrRange) : Decidable (Valid r) :=
  decidable_of_iff (Proper r ∧ (r.masks ≠ [] → (r.end_ - r.start) >>> r.masks.length ≠ 1))
    ⟨fun h => ⟨h.1, h.2⟩, fun h => ⟨h.toProper, h.several⟩⟩

/-- The ranges of this port count: it is not the default port, or the default range is used. -/
def Counts (cfg : Params) (p : ℕ) : Prop := cfg.useDefaultRange = true ∨ some p ≠ cfg.defaultPortID

instance (cfg : Params) (p : ℕ) : Decidable (Counts cfg p) :=
  inferInstanceAs (Decidable (_ ∨ _))

/-- The ranges that a port announces can be compared with each other, and with the latest
ranges of the other ports that are in the map. -/
def Fits (cfg : Params) (w : World) (id : ℕ) (ranges : List AddrRange) : Prop :=
  ranges.Pairwise (fun x y => Comparable y x) ∧
    ∀ q < cfg.numPorts, q ≠ id → some q ≠ cfg.defaultPortID →
      ∀ x ∈ w.ranges q, ∀ r ∈ ranges, Comparable r x

instance (cfg : Params) (w : World) (id : ℕ) (ranges : List AddrRange) :
    Decidable (Fits cfg w id ranges) :=
  inferInstanceAs (Decidable (_ ∧ _))

/-- Ports announce valid ranges that can be compared; packets are for ranges that are not
interleaved and not empty. -/
def Allowed (cfg : Params) (w : World) : Action → Prop
  | .rangeChange id ranges => id < cfg.numPorts ∧ (Counts cfg id → ∀ r ∈ ranges, Valid r) ∧
      (some id ≠ cfg.defaultPortID → Fits cfg w id ranges)
  | .findPort addr_range => addr_range.masks = [] ∧ addr_range.start < addr_range.end_

instance (cfg : Params) (w : World) : (a : Action) → Decidable (Allowed cfg w a)
  | .rangeChange id ranges => inferInstanceAs
      (Decidable (id < cfg.numPorts ∧ (Counts cfg id → ∀ r ∈ ranges, Valid r) ∧
        (some id ≠ cfg.defaultPortID → Fits cfg w id ranges)))
  | .findPort addr_range => inferInstanceAs
      (Decidable (addr_range.masks = [] ∧ addr_range.start < addr_range.end_))

end Gem5.Mem.AddressMap
