/-
# Maps from address ranges

Embedding of `AddrRangeMap` (`base/addr_range_map.hh`).  The `std::map` is the list of
its nodes in the order of the keys; a node keeps its identity, and an iterator is the
identity of a node, so that an iterator of an erased node is not an iterator of a node
with the same key that is inserted later.  `none` is `end()`.

Lookups search a small cache of iterators first and write to it.  Dereferencing a
cached iterator whose node was erased is a failure.
-/
import Gem5.AddrRange

open Runs

namespace Gem5.Base

/-- A node of the tree. -/
structure Node (V : Type) where
  id : ℕ
  range : AddrRange
  value : V
  deriving DecidableEq, Repr

/-- `AddrRangeMap<V, max_cache_size>`: the tree, the cache, and the identity of the next
node. -/
structure AddrRangeMap (V : Type) where
  tree : List (Node V)
  cache : List ℕ
  nextId : ℕ

/-- A condition on ranges, as `find` gets it. -/
abbrev Cond := AddrRange → Except Fail Bool

variable {V : Type}

/-! ## Search in the tree -/

/-- The nodes in front of `tree.upper_bound(r)`. -/
def nodesUpTo (tree : List (Node V)) (r : AddrRange) : List (Node V) :=
  tree.takeWhile fun n => !r.lt n.range

/-- The nodes from `tree.upper_bound(r)` on. -/
def nodesAfter (tree : List (Node V)) (r : AddrRange) : List (Node V) :=
  tree.dropWhile fun n => !r.lt n.range

/-- The backward loop of `find`, on the nodes in reverse order. -/
def walkBack (cond : Cond) : List (Node V) → Except Fail (Option (Node V))
  | [] => .ok none
  | i :: rest => do
      let found ← cond i.range
      if found then return some i
      match rest with
      | [] => return none
      | next :: _ => if next.range.mergesWith i.range then walkBack cond rest else return none

/-- The part of `find` after the cache. -/
def findInTree (tree : List (Node V)) (r : AddrRange) (cond : Cond) :
    Except Fail (Option (Node V)) :=
  match nodesAfter tree r with
  | [] => walkBack cond (nodesUpTo tree r).reverse
  | next :: _ => do
      let found ← cond next.range
      if found then return some next
      walkBack cond (nodesUpTo tree r).reverse

/-! ## The cache -/

/-- The node of an iterator. -/
def nodeAt (tree : List (Node V)) (id : ℕ) : Option (Node V) := tree.find? fun n => n.id = id

/-- The loop over the cache: the first cached node that meets the condition. -/
def findInCache (tree : List (Node V)) (cond : Cond) :
    List ℕ → Except Fail (Option (Node V))
  | [] => .ok none
  | c :: cache => do
      let n ← orFail .danglingIterator (nodeAt tree c)
      let found ← cond n.range
      if found then return some n else findInCache tree cond cache

/-- `addNewEntryToCache(it)` -/
def addNewEntryToCache (maxCacheSize : ℕ) (cache : List ℕ) (it : ℕ) : List ℕ :=
  if maxCacheSize ≠ 0 then
    if maxCacheSize ≤ cache.length then it :: cache.dropLast else it :: cache
  else cache

/-- `find(r, cond)`: the entry, and the map with its cache rearranged. -/
def AddrRangeMap.find (m : AddrRangeMap V) (maxCacheSize : ℕ) (r : AddrRange) (cond : Cond) :
    Except Fail (Option (Node V) × AddrRangeMap V) := do
  let hit ← findInCache m.tree cond m.cache
  match hit with
  | some n => return (some n, { m with cache := n.id :: m.cache.erase n.id })
  | none => do
      let found ← findInTree m.tree r cond
      match found with
      | some n => return (some n, { m with cache := addNewEntryToCache maxCacheSize m.cache n.id })
      | none => return (none, m)

/-! ## Operations -/

/-- `contains(r)` -/
def AddrRangeMap.contains (m : AddrRangeMap V) (maxCacheSize : ℕ) (r : AddrRange) :
    Except Fail (Option (Node V) × AddrRangeMap V) :=
  m.find maxCacheSize r r.isSubset

/-- `contains(a)` -/
def AddrRangeMap.containsAddr (m : AddrRangeMap V) (maxCacheSize : ℕ) (a : Addr) :
    Except Fail (Option (Node V) × AddrRangeMap V) :=
  m.contains maxCacheSize (rangeSize a 1)

/-- `intersects(r)` -/
def AddrRangeMap.intersects (m : AddrRangeMap V) (maxCacheSize : ℕ) (r : AddrRange) :
    Except Fail (Option (Node V) × AddrRangeMap V) :=
  m.find maxCacheSize r r.intersects

/-- `tree.insert`: nothing happens when there is an equivalent key. -/
def AddrRangeMap.treeInsert (m : AddrRangeMap V) (r : AddrRange) (v : V) : AddrRangeMap V :=
  if m.tree.any fun n => !r.lt n.range && !n.range.lt r then m
  else
    { m with
      tree := nodesUpTo m.tree r ++ ⟨m.nextId, r, v⟩ :: nodesAfter m.tree r
      nextId := m.nextId + 1 }

/-- `insert(r, d)` -/
def AddrRangeMap.insert (m : AddrRangeMap V) (maxCacheSize : ℕ) (r : AddrRange) (v : V) :
    Except Fail (AddrRangeMap V) := do
  let (found, m) ← m.intersects maxCacheSize r
  match found with
  | some _ => return m
  | none => return m.treeInsert r v

/-- `erase(p)` -/
def AddrRangeMap.erase (m : AddrRangeMap V) (p : ℕ) : Except Fail (AddrRangeMap V) := do
  let _ ← orFail .invalidIterator (nodeAt m.tree p)
  return { m with cache := m.cache.filter (· ≠ p), tree := m.tree.filter (·.id ≠ p) }

/-- The nodes of `[p, q)`, where `q` may be `end()`. -/
def segment (tree : List (Node V)) (p : ℕ) (q : Option ℕ) : List (Node V) :=
  (tree.dropWhile fun n => n.id ≠ p).takeWhile fun n => some n.id ≠ q

/-- The loop of the range `erase`: `p` is removed from the cache in every round. -/
def removeRounds (cache : List ℕ) (p : ℕ) : List (Node V) → List ℕ
  | [] => cache
  | _ :: rest => removeRounds (cache.filter (· ≠ p)) p rest

/-- `erase(p, q)`: `q` must be reachable from `p`. -/
def AddrRangeMap.eraseRange (m : AddrRangeMap V) (p q : Option ℕ) : Except Fail (AddrRangeMap V) :=
  match p with
  | none => do
      require .invalidIterator (q = none)
      return m
  | some p => do
      let _ ← orFail .invalidIterator (nodeAt m.tree p)
      match q with
      | none => pure ()
      | some q => do
          let _ ← orFail .invalidIterator (nodeAt (m.tree.dropWhile fun n => n.id ≠ p) q)
          pure ()
      let erased := segment m.tree p q
      return { m with
        cache := removeRounds m.cache p erased
        tree := m.tree.filter fun n => !erased.any (·.id = n.id) }

/-- `clear()` -/
def AddrRangeMap.clear (m : AddrRangeMap V) : AddrRangeMap V := { m with cache := [], tree := [] }

/-- The operations. -/
inductive MapAction (V : Type) where
  | insert (r : AddrRange) (v : V)
  | erase (p : ℕ)
  | eraseRange (p q : Option ℕ)
  | clear
  | contains (r : AddrRange)
  | intersects (r : AddrRange)

/-- One operation. -/
def AddrRangeMap.step (maxCacheSize : ℕ) (m : AddrRangeMap V) :
    MapAction V → Except Fail (AddrRangeMap V)
  | .insert r v => m.insert maxCacheSize r v
  | .erase p => m.erase p
  | .eraseRange p q => m.eraseRange p q
  | .clear => .ok m.clear
  | .contains r => do
      let (_, m) ← m.contains maxCacheSize r
      return m
  | .intersects r => do
      let (_, m) ← m.intersects maxCacheSize r
      return m

def AddrRangeMap.empty : AddrRangeMap V := ⟨[], [], 0⟩

end Gem5.Base
