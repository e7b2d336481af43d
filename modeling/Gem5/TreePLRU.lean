/-
# The tree-PLRU replacement policy

Embedding of `TreePLRU` (`mem/cache/replacement_policies/tree_plru_rp.cc`).  The entries of a set
share a complete binary tree, kept as an array of bits in the order of a heap; the entries are its
leaves, and only their indices exist.
-/
import Gem5.BitString
import Gem5.BitTree
import Gem5.FALRU
import Gem5.Loop

open Loop

namespace Gem5.Mem.ReplacementPolicy

/-! ## Indices -/

/-- A 64-bit number as `double` holds it: rounded to 53 significant bits, ties to even. -/
def toDouble (n : ℕ) : ℕ :=
  if n < 2 ^ 53 then n
  else
    let unit := 2 ^ (n.log2 - 52)
    let down := n / unit
    if 2 * (n % unit) > unit ∨ (2 * (n % unit) = unit ∧ down % 2 = 1) then (down + 1) * unit
    else down * unit

/-- `parentIndex(index)`; the subtraction is one of 64-bit numbers, and `floor` one of `double`. -/
def parentIndex (index : ℕ) : ℕ := toDouble ((index + 2 ^ 64 - 1) % 2 ^ 64 / 2)

/-- `leftSubtreeIndex(index)` -/
def leftSubtreeIndex (index : ℕ) : ℕ := 2 * index + 1

/-- `rightSubtreeIndex(index)` -/
def rightSubtreeIndex (index : ℕ) : ℕ := 2 * index + 2

/-- `isRightSubtree(index)` -/
def isRightSubtree (index : ℕ) : Bool := index % 2 = 0

/-! ## The policy -/

/-- `PLRUTree` -/
abbrev PLRUTree := List Bool

/-- `TreePLRUReplData`; the trees are numbered in the order of their creation. -/
structure TreePLRUReplData where
  index : ℕ
  tree : ℕ
  deriving DecidableEq, Repr

/-- `TreePLRU`; `treeInstance` is the number of the latest tree, if there is one. -/
structure TreePLRU where
  numLeaves : ℕ
  count : ℕ := 0
  treeInstance : Option ℕ := none
  deriving DecidableEq, Repr

/-- The check of the constructor; the parameter is an `int`. -/
def Accepted (numLeaves : ℕ) : Prop := numLeaves < 2 ^ 31 ∧ FALRU.isPowerOf2 numLeaves = true

/-- The tree that a new entry gets. -/
def nextTree (p : TreePLRU) : ℕ :=
  if p.count % p.numLeaves = 0 then p.treeInstance.elim 0 (· + 1) else p.treeInstance.getD 0

/-- `instantiateEntry()` -/
def instantiateEntry (p : TreePLRU) : TreePLRUReplData × TreePLRU :=
  (⟨p.count % p.numLeaves + p.numLeaves - 1, nextTree p⟩,
    { p with count := p.count + 1, treeInstance := some (nextTree p) })

/-- The entries of `n` calls of `instantiateEntry`. -/
def instantiateEntries : ℕ → TreePLRU → List TreePLRUReplData
  | 0, _ => []
  | n + 1, p => (instantiateEntry p).1 :: instantiateEntries n (instantiateEntry p).2

/-- The variables of the walk up from an entry. -/
structure Walk where
  treeIndex : ℕ
  tree : PLRUTree
  deriving DecidableEq, Repr

/-- One round of the walk up, which gives a node what `bit` makes of the side it has come from; the
walk ends without a tree when the node does not exist. -/
def walkRound (bit : Bool → Bool) (s : Walk) : Walk ⊕ Option PLRUTree :=
  let right := isRightSubtree s.treeIndex
  let treeIndex := parentIndex s.treeIndex
  if treeIndex < s.tree.length then
    let tree := s.tree.set treeIndex (bit right)
    if treeIndex ≠ 0 then .inl ⟨treeIndex, tree⟩ else .inr (some tree)
  else .inr none

/-- `invalidate(replacement_data)` -/
def Invalidate (entry : TreePLRUReplData) (tree : PLRUTree) : Option PLRUTree → Prop :=
  Yields (walkRound id) ⟨entry.index, tree⟩

/-- `touch(replacement_data)` -/
def Touch (entry : TreePLRUReplData) (tree : PLRUTree) : Option PLRUTree → Prop :=
  Yields (walkRound (!·)) ⟨entry.index, tree⟩

/-- `reset(replacement_data)` -/
def Reset (entry : TreePLRUReplData) (tree : PLRUTree) : Option PLRUTree → Prop := Touch entry tree

/-- One round of the walk down of `getVictim`. -/
def victimRound (tree : PLRUTree) (treeIndex : ℕ) : ℕ ⊕ ℕ :=
  match tree[treeIndex]? with
  | some true => .inl (rightSubtreeIndex treeIndex)
  | some false => .inl (leftSubtreeIndex treeIndex)
  | none => .inr treeIndex

/-- `getVictim(candidates)` -/
def GetVictim (numLeaves : ℕ) (tree : PLRUTree) (candidates : List TreePLRUReplData)
    (victim : TreePLRUReplData) : Prop :=
  ∃ treeIndex, Yields (victimRound tree) 0 treeIndex ∧
    candidates[treeIndex - (numLeaves - 1)]? = some victim

/-- Rounds of `getVictim` and `touch` of the victim, with the victims in their order. -/
inductive Rounds (numLeaves : ℕ) (candidates : List TreePLRUReplData) :
    PLRUTree → List TreePLRUReplData → PLRUTree → Prop
  | nil (tree : PLRUTree) : Rounds numLeaves candidates tree [] tree
  | cons {tree tree' tree'' : PLRUTree} {victim : TreePLRUReplData}
      {victims : List TreePLRUReplData} (hvictim : GetVictim numLeaves tree candidates victim)
      (htouch : Touch victim tree (some tree'))
      (hrest : Rounds numLeaves candidates tree' victims tree'') :
      Rounds numLeaves candidates tree (victim :: victims) tree''

/-- The entries of a set, which are instantiated one after the other, and a state of their tree. -/
structure SetOf (numLeaves : ℕ) (candidates : List TreePLRUReplData) (tree : PLRUTree) : Prop where
  instantiated : ∃ p : TreePLRU, p.numLeaves = numLeaves ∧ numLeaves ∣ p.count ∧
    candidates = instantiateEntries numLeaves p
  length_tree : tree.length = numLeaves - 1

/-- **The laws of the policy**, for every set of entries and every state of their tree. -/
structure Laws (numLeaves : ℕ) : Prop where
  touch_exists : ∀ candidates tree, SetOf numLeaves candidates tree → ∀ e ∈ candidates,
    ∃ tree', Touch e tree (some tree')
  reset_exists : ∀ candidates tree, SetOf numLeaves candidates tree → ∀ e ∈ candidates,
    ∃ tree', Reset e tree (some tree')
  invalidate_exists : ∀ candidates tree, SetOf numLeaves candidates tree → ∀ e ∈ candidates,
    ∃ tree', Invalidate e tree (some tree')
  touched_spared : 2 ≤ numLeaves → ∀ candidates tree, SetOf numLeaves candidates tree →
    ∀ e ∈ candidates, ∀ tree', Touch e tree (some tree') →
      ∃ victim, GetVictim numLeaves tree' candidates victim ∧ victim ≠ e
  invalidated_chosen : 2 ≤ numLeaves → ∀ candidates tree, SetOf numLeaves candidates tree →
    ∀ e ∈ candidates, ∀ tree', Invalidate e tree (some tree') →
      GetVictim numLeaves tree' candidates e
  rounds_exist : ∀ candidates tree, SetOf numLeaves candidates tree →
    ∃ victims tree', victims.length = numLeaves ∧ Rounds numLeaves candidates tree victims tree'
  rounds_perm : ∀ candidates tree, SetOf numLeaves candidates tree → ∀ victims tree',
    victims.length = numLeaves → Rounds numLeaves candidates tree victims tree' →
      victims.Perm candidates

/-! ## Nodes as paths -/

/-- The index of the node that a path leads to. -/
def nodeIndex (q : List Bool) : ℕ :=
  q.foldl (fun i d => if d then rightSubtreeIndex i else leftSubtreeIndex i) 0

/-- The bits of the nodes. -/
def bitsOf (tree : PLRUTree) : BitTree.Bits := fun q => tree.getD (nodeIndex q) false

theorem nodeIndex_append (q : List Bool) (d : Bool) :
    nodeIndex (q ++ [d]) = 2 * nodeIndex q + 1 + d.toNat := by
  unfold nodeIndex
  rw [List.foldl_append]
  cases d <;> rfl

/-- A path is the number of its node, less the leading one, when the nodes are counted from one. -/
theorem nodeIndex_succ (q : List Bool) : nodeIndex q + 1 = BitString.value (true :: q) := by
  induction q using List.reverseRecOn with
  | nil => rfl
  | append_singleton q d ih =>
    rw [nodeIndex_append, ← List.cons_append, BitString.value_append_singleton, ← ih]
    omega

theorem nodeIndex_eq (q : List Bool) :
    nodeIndex q + 1 = 2 ^ q.length + BitString.value q := by
  rw [nodeIndex_succ, BitString.value_cons, Bool.toNat_true, Nat.mul_one]

theorem nodeIndex_inj {q r : List Bool} (h : nodeIndex q = nodeIndex r) : q = r := by
  have hvalue : BitString.value (true :: q) = BitString.value (true :: r) := by
    rw [← nodeIndex_succ, ← nodeIndex_succ, h]
  exact List.tail_eq_of_cons_eq ((BitString.value_eq_iff _ _).mp hvalue)

/-- The inner nodes of a tree of depth `k` are the paths shorter than `k`. -/
theorem nodeIndex_lt {q : List Bool} {k : ℕ} (h : q.length < k) : nodeIndex q < 2 ^ k - 1 := by
  have heq := nodeIndex_eq q
  have hvalue := BitString.value_lt q
  have hpow : 2 ^ (q.length + 1) ≤ 2 ^ k := Nat.pow_le_pow_right (by decide) h
  rw [Nat.pow_succ] at hpow
  omega

theorem le_nodeIndex {q : List Bool} {k : ℕ} (h : q.length = k) : 2 ^ k - 1 ≤ nodeIndex q := by
  have heq := nodeIndex_eq q
  rw [h] at heq
  omega

theorem nodeIndex_eq_zero {q : List Bool} : nodeIndex q = 0 ↔ q = [] := by
  constructor
  · intro h
    exact nodeIndex_inj h
  · rintro rfl
    rfl

@[simp] theorem isRightSubtree_nodeIndex (q : List Bool) (d : Bool) :
    isRightSubtree (nodeIndex (q ++ [d])) = d := by
  rw [nodeIndex_append]
  unfold isRightSubtree
  cases d
  · have hodd : (2 * nodeIndex q + 1 + 0) % 2 = 1 := by omega
    simp [hodd]
  · have heven : (2 * nodeIndex q + 1 + 1) % 2 = 0 := by omega
    simp [heven]

theorem toDouble_of_lt {n : ℕ} (h : n < 2 ^ 53) : toDouble n = n := if_pos h

/-- Below `2 ^ 53`, the parent of a child is the node itself. -/
theorem parentIndex_nodeIndex {q : List Bool} (d : Bool) (h : nodeIndex q < 2 ^ 53) :
    parentIndex (nodeIndex (q ++ [d])) = nodeIndex q := by
  have hd := Bool.toNat_le d
  have hmod : (2 * nodeIndex q + 1 + d.toNat + 2 ^ 64 - 1) % 2 ^ 64 / 2 = nodeIndex q := by
    omega
  unfold parentIndex
  rw [nodeIndex_append, hmod, toDouble_of_lt h]

theorem bitsOf_set {tree : PLRUTree} {q : List Bool} (h : nodeIndex q < tree.length) (b : Bool) :
    bitsOf (tree.set (nodeIndex q) b) = Function.update (bitsOf tree) q b := by
  funext r
  by_cases hr : r = q
  · subst hr
    simp [bitsOf, h]
  · have hne : nodeIndex q ≠ nodeIndex r := fun heq => hr (nodeIndex_inj heq).symm
    simp [bitsOf, Function.update_of_ne hr, List.getElem?_set_ne hne]

/-! ## The walks -/

/-- **The walk up updates the path to the entry.** -/
theorem walk_spec (bit : Bool → Bool) {k : ℕ} (hk : k ≤ 53) {path : List Bool} (hpath : path ≠ [])
    (hlen : path.length ≤ k) {tree : PLRUTree} (htree : tree.length = 2 ^ k - 1) :
    ∃ tree', Yields (walkRound bit) ⟨nodeIndex path, tree⟩ (some tree') ∧
      tree'.length = tree.length ∧ bitsOf tree' = BitTree.update bit path (bitsOf tree) := by
  induction path using List.reverseRecOn generalizing tree with
  | nil => exact absurd rfl hpath
  | append_singleton q d ih =>
    rw [List.length_append, List.length_singleton] at hlen
    have hlt : nodeIndex q < tree.length := htree ▸ nodeIndex_lt (by omega)
    have hpow : 2 ^ k ≤ 2 ^ 53 := Nat.pow_le_pow_right (by decide) hk
    have hparent : parentIndex (nodeIndex (q ++ [d])) = nodeIndex q :=
      parentIndex_nodeIndex d (by omega)
    have hbits := bitsOf_set hlt (bit d)
    have hround : walkRound bit ⟨nodeIndex (q ++ [d]), tree⟩
        = if nodeIndex q ≠ 0 then .inl ⟨nodeIndex q, tree.set (nodeIndex q) (bit d)⟩
          else .inr (some (tree.set (nodeIndex q) (bit d))) := by
      simp only [walkRound, hparent, isRightSubtree_nodeIndex, if_pos hlt]
    by_cases hq : q = []
    · rw [if_neg (by simp [nodeIndex_eq_zero, hq])] at hround
      refine ⟨_, .last hround, by simp, ?_⟩
      rw [hbits, hq]
      exact (BitTree.update_append bit [] d (bitsOf tree)).symm
    · rw [if_pos (by simp [nodeIndex_eq_zero, hq])] at hround
      have hset : (tree.set (nodeIndex q) (bit d)).length = 2 ^ k - 1 := by simp [htree]
      obtain ⟨tree', hyields, hlength, hbits'⟩ := ih hq (by omega) hset
      refine ⟨tree', hyields.next hround, by simp [hlength], ?_⟩
      rw [hbits', hbits, BitTree.update_append]

/-- **The walk down follows the bits.** -/
theorem victimRound_spec {K : ℕ} {tree : PLRUTree} (htree : tree.length = 2 ^ K - 1) (k : ℕ) :
    ∀ q : List Bool, q.length + k = K → Yields (victimRound tree) (nodeIndex q)
      (nodeIndex (q ++ BitTree.select k fun r => bitsOf tree (q ++ r))) := by
  induction k with
  | zero =>
    intro q hq
    have hle := le_nodeIndex (q := q) (k := K) (by omega)
    have hnone : tree[nodeIndex q]? = none := List.getElem?_eq_none (by omega)
    have hround : victimRound tree (nodeIndex q) = .inr (nodeIndex q) := by
      simp [victimRound, hnone]
    rw [BitTree.select, List.append_nil]
    exact .last hround
  | succ k ih =>
    intro q hq
    have hlt : nodeIndex q < tree.length := htree ▸ nodeIndex_lt (by omega)
    set d := bitsOf tree q with hd
    have hget : tree[nodeIndex q]? = some d := by
      rw [hd]
      simp [bitsOf, List.getElem?_eq_getElem hlt]
    have hround : victimRound tree (nodeIndex q) = .inl (nodeIndex (q ++ [d])) := by
      rw [nodeIndex_append]
      unfold victimRound
      rw [hget]
      cases d <;> rfl
    have hrest := ih (q ++ [d]) (by simp; omega)
    refine Yields.next hround ?_
    have hpath : q ++ BitTree.select (k + 1) (fun r => bitsOf tree (q ++ r))
        = q ++ [d] ++ BitTree.select k fun r => bitsOf tree (q ++ [d] ++ r) := by
      simp only [BitTree.select, List.append_nil, ← hd, List.append_assoc, List.singleton_append]
      rfl
    rw [hpath]
    exact hrest

/-! ## The entries of a set -/

/-- The entry at a leaf of a tree. -/
def entryAt (t : ℕ) (path : List Bool) : TreePLRUReplData := ⟨nodeIndex path, t⟩

theorem value_leaves (k : ℕ) : (BitTree.leaves k).map BitString.value = List.range (2 ^ k) := by
  induction k with
  | zero => rfl
  | succ k ih =>
    have hlen : ∀ q ∈ BitTree.leaves k, q.length = k := BitTree.length_leaves k
    have hleft : (BitTree.leaves k).map (BitString.value ∘ (false :: ·)) = List.range (2 ^ k) := by
      rw [← ih]
      apply List.map_congr_left
      intro q _
      simp [BitString.value_cons]
    have hright : (BitTree.leaves k).map (BitString.value ∘ (true :: ·))
        = (List.range (2 ^ k)).map (2 ^ k + ·) := by
      rw [← ih, List.map_map]
      apply List.map_congr_left
      intro q hq
      simp [BitString.value_cons, hlen q hq]
    rw [BitTree.leaves, List.map_append, List.map_map, List.map_map, hleft, hright,
      Nat.pow_succ, Nat.mul_two, List.range_add]

/-- The entries of the calls that use one tree: their indices count up. -/
theorem instantiateEntries_eq {n t : ℕ} (m : ℕ) :
    ∀ (p : TreePLRU) (j : ℕ), p.numLeaves = n → p.count % n = j → j + m ≤ n → nextTree p = t →
      instantiateEntries m p = (List.range' j m).map fun i => ⟨i + n - 1, t⟩ := by
  induction m with
  | zero =>
    intro p j _ _ _ _
    rfl
  | succ m ih =>
    intro p j hn hj hle ht
    have hfirst : (instantiateEntry p).1 = ⟨j + n - 1, t⟩ := by
      simp [instantiateEntry, hn, hj, ht]
    rw [instantiateEntries, hfirst, List.range'_succ, List.map_cons]
    congr 1
    by_cases hm : m = 0
    · subst hm
      rfl
    · have hmod : (p.count + 1) % n = j + 1 := by
        rw [Nat.add_mod, hj, Nat.mod_eq_of_lt (show 1 < n by omega), Nat.mod_eq_of_lt (by omega)]
      apply ih (instantiateEntry p).2 (j + 1) hn hmod (by omega)
      simp [nextTree, instantiateEntry, hn, hmod, ← ht]

/-- **The entries of a set are the leaves of one tree.** -/
theorem SetOf.eq_leaves {k : ℕ} {candidates : List TreePLRUReplData} {tree : PLRUTree}
    (h : SetOf (2 ^ k) candidates tree) :
    ∃ t, candidates = (BitTree.leaves k).map (entryAt t) := by
  obtain ⟨p, hn, hdvd, rfl⟩ := h.instantiated
  refine ⟨nextTree p, ?_⟩
  rw [instantiateEntries_eq (2 ^ k) p 0 hn (Nat.mod_eq_zero_of_dvd hdvd) (by omega) rfl,
    ← List.range_eq_range', ← value_leaves, List.map_map]
  apply List.map_congr_left
  intro path hpath
  have heq := nodeIndex_eq path
  rw [BitTree.length_leaves k path hpath] at heq
  simp only [Function.comp, entryAt]
  congr 1
  omega

/-! ## The laws -/

section Laws

variable {k t : ℕ} (hk : k ≤ 53) {tree : PLRUTree} (htree : tree.length = 2 ^ k - 1)
include hk htree

/-- An entry of a tree that is no single leaf is found by the walk up. -/
theorem update_spec (bit : Bool → Bool) (hpos : k ≠ 0) {path : List Bool}
    (hpath : path.length = k) :
    ∃ tree', Yields (walkRound bit) ⟨(entryAt t path).index, tree⟩ (some tree') ∧
      tree'.length = 2 ^ k - 1 ∧ bitsOf tree' = BitTree.update bit path (bitsOf tree) := by
  have hne : path ≠ [] := by
    rintro rfl
    exact hpos hpath.symm
  obtain ⟨tree', hyields, hlength, hbits⟩ := walk_spec bit hk hne hpath.le htree
  exact ⟨tree', hyields, hlength.trans htree, hbits⟩

/-- What a walk up that ends with a tree has done. -/
theorem update_result {bit : Bool → Bool} (hpos : k ≠ 0) {path : List Bool}
    (hpath : path.length = k) {tree' : PLRUTree}
    (h : Yields (walkRound bit) ⟨(entryAt t path).index, tree⟩ (some tree')) :
    tree'.length = 2 ^ k - 1 ∧ bitsOf tree' = BitTree.update bit path (bitsOf tree) := by
  obtain ⟨tree'', hyields, hspec⟩ := update_spec (t := t) hk htree bit hpos hpath
  obtain rfl := Option.some.inj (hyields.unique h)
  exact hspec

omit hk

/-- **The victim is the leaf that the bits select.** -/
theorem getVictim_spec :
    GetVictim (2 ^ k) tree ((BitTree.leaves k).map (entryAt t))
      (entryAt t (BitTree.select k (bitsOf tree))) := by
  have hwalk := victimRound_spec htree k [] (by simp)
  rw [List.nil_append] at hwalk
  set path := BitTree.select k (bitsOf tree) with hpath
  have hlength : path.length = k := BitTree.length_select k _
  refine ⟨nodeIndex path, hwalk, ?_⟩
  have hvalue : nodeIndex path - (2 ^ k - 1) = BitString.value path := by
    have heq := nodeIndex_eq path
    rw [hlength] at heq
    have hpos := Nat.two_pow_pos k
    omega
  have hrange : BitString.value path < 2 ^ k := hlength ▸ BitString.value_lt path
  have hnumber : ((BitTree.leaves k).map BitString.value)[BitString.value path]?
      = some (BitString.value path) := by
    rw [value_leaves, List.getElem?_range hrange]
  rw [List.getElem?_map] at hnumber
  obtain ⟨q, hq, hqvalue⟩ := Option.map_eq_some_iff.mp hnumber
  have hqlength := BitTree.length_leaves k q (List.mem_of_getElem? hq)
  obtain rfl : q = path := BitString.eq_of_value (hqlength.trans hlength.symm) hqvalue
  rw [hvalue, List.getElem?_map, hq]
  rfl

omit htree in
/-- `getVictim` chooses one entry. -/
theorem GetVictim.unique {n : ℕ} {candidates : List TreePLRUReplData} {v w : TreePLRUReplData}
    (hv : GetVictim n tree candidates v) (hw : GetVictim n tree candidates w) : v = w := by
  obtain ⟨i, hi, hvi⟩ := hv
  obtain ⟨j, hj, hwj⟩ := hw
  rw [hi.unique hj] at hvi
  exact Option.some.inj (hvi.symm.trans hwj)

include hk

/-- One round selects the next leaf and turns the bits away from it. -/
theorem round_spec (hpos : k ≠ 0) :
    ∃ tree', Touch (entryAt t (BitTree.select k (bitsOf tree))) tree (some tree') ∧
      tree'.length = 2 ^ k - 1 ∧ bitsOf tree' = BitTree.rotate k (bitsOf tree) :=
  update_spec hk htree (!·) hpos (BitTree.length_select k _)

end Laws

theorem rounds_exist {k t : ℕ} (hk : k ≤ 53) (hpos : k ≠ 0) (n : ℕ) :
    ∀ tree : PLRUTree, tree.length = 2 ^ k - 1 → ∃ victims tree', victims.length = n ∧
      Rounds (2 ^ k) ((BitTree.leaves k).map (entryAt t)) tree victims tree' := by
  induction n with
  | zero => exact fun tree _ => ⟨[], tree, rfl, .nil tree⟩
  | succ n ih =>
    intro tree htree
    obtain ⟨tree', htouch, hlength, -⟩ := round_spec (t := t) hk htree hpos
    obtain ⟨victims, tree'', hn, hrounds⟩ := ih tree' hlength
    exact ⟨_, tree'', by simp [hn], .cons (getVictim_spec htree) htouch hrounds⟩

/-- **Rounds of `getVictim` and `touch` turn the rotor.** -/
theorem rounds_spec {k t : ℕ} (hk : k ≤ 53) (hpos : k ≠ 0) {tree tree' : PLRUTree}
    {victims : List TreePLRUReplData}
    (h : Rounds (2 ^ k) ((BitTree.leaves k).map (entryAt t)) tree victims tree')
    (htree : tree.length = 2 ^ k - 1) :
    victims = (BitTree.selections k victims.length (bitsOf tree)).map (entryAt t) := by
  induction h with
  | nil tree => rfl
  | cons hvictim htouch _ ih =>
    obtain rfl := hvictim.unique (getVictim_spec htree)
    obtain ⟨hlength, hbits⟩ := update_result hk htree hpos (BitTree.length_select k _) htouch
    have hrest := ih hlength
    rw [List.length_cons, BitTree.selections, List.map_cons]
    congr 1
    rw [hbits] at hrest
    exact hrest

/-- **The laws hold for every tree that is no single leaf.** -/
theorem laws_two_pow {k : ℕ} (hk : k ≤ 53) (hpos : k ≠ 0) : Laws (2 ^ k) where
  touch_exists candidates tree hset e he := by
    obtain ⟨t, rfl⟩ := hset.eq_leaves
    obtain ⟨path, hpath, rfl⟩ := List.mem_map.mp he
    obtain ⟨tree', hyields, -⟩ := update_spec (t := t) hk hset.length_tree (!·) hpos
      (BitTree.length_leaves k path hpath)
    exact ⟨tree', hyields⟩
  reset_exists candidates tree hset e he := by
    obtain ⟨t, rfl⟩ := hset.eq_leaves
    obtain ⟨path, hpath, rfl⟩ := List.mem_map.mp he
    obtain ⟨tree', hyields, -⟩ := update_spec (t := t) hk hset.length_tree (!·) hpos
      (BitTree.length_leaves k path hpath)
    exact ⟨tree', hyields⟩
  invalidate_exists candidates tree hset e he := by
    obtain ⟨t, rfl⟩ := hset.eq_leaves
    obtain ⟨path, hpath, rfl⟩ := List.mem_map.mp he
    obtain ⟨tree', hyields, -⟩ := update_spec (t := t) hk hset.length_tree id hpos
      (BitTree.length_leaves k path hpath)
    exact ⟨tree', hyields⟩
  touched_spared _ candidates tree hset e he tree' htouch := by
    obtain ⟨t, rfl⟩ := hset.eq_leaves
    obtain ⟨path, hpath, rfl⟩ := List.mem_map.mp he
    have hlength := BitTree.length_leaves k path hpath
    obtain ⟨htree', hbits⟩ := update_result hk hset.length_tree hpos hlength htouch
    refine ⟨_, getVictim_spec htree', fun heq => ?_⟩
    have hne : path ≠ [] := by
      rintro rfl
      exact hpos hlength.symm
    apply BitTree.select_update_away hne k (bitsOf tree)
    rw [← hbits]
    exact nodeIndex_inj (congrArg TreePLRUReplData.index heq)
  invalidated_chosen _ candidates tree hset e he tree' hinvalidate := by
    obtain ⟨t, rfl⟩ := hset.eq_leaves
    obtain ⟨path, hpath, rfl⟩ := List.mem_map.mp he
    have hlength := BitTree.length_leaves k path hpath
    obtain ⟨htree', hbits⟩ := update_result hk hset.length_tree hpos hlength hinvalidate
    have hselect : BitTree.select k (bitsOf tree') = path := by
      rw [hbits, ← hlength, BitTree.select_update_towards]
    have hvictim := getVictim_spec (t := t) htree'
    rwa [hselect] at hvictim
  rounds_exist candidates tree hset := by
    obtain ⟨t, rfl⟩ := hset.eq_leaves
    exact rounds_exist hk hpos (2 ^ k) tree hset.length_tree
  rounds_perm candidates tree hset victims tree' hn hrounds := by
    obtain ⟨t, rfl⟩ := hset.eq_leaves
    rw [rounds_spec hk hpos hrounds hset.length_tree, hn]
    exact (BitTree.selections_perm k (bitsOf tree)).map (entryAt t)

/-- A single leaf has no parent: the walk up leaves the empty tree. -/
theorem touch_single_leaf (t : ℕ) : Touch ⟨0, t⟩ [] none :=
  ⟨1, by simp [loop, walkRound]⟩

theorem setOf_single_leaf : SetOf 1 [⟨0, 0⟩] [] where
  instantiated := ⟨{ numLeaves := 1 }, rfl, by decide, by decide⟩
  length_tree := rfl

theorem not_laws_one : ¬ Laws 1 := by
  intro h
  obtain ⟨tree', htouch⟩ := h.touch_exists _ _ setOf_single_leaf ⟨0, 0⟩ (by decide)
  exact nomatch htouch.unique (touch_single_leaf 0)

theorem accepted_eq_two_pow {n : ℕ} (h : Accepted n) : ∃ k, n = 2 ^ k ∧ k < 31 := by
  obtain ⟨hlt, hpow⟩ := h
  simp only [FALRU.isPowerOf2, Bool.and_eq_true, decide_eq_true_eq] at hpow
  obtain ⟨k, rfl⟩ := Nat.ne_zero_and_sub_one_eq_zero_iff_isPowerOfTwo.mp hpow
  exact ⟨k, rfl, (Nat.pow_lt_pow_iff_right (by decide)).mp hlt⟩

/-- **Tree-PLRU laws.**  A number of leaves that the constructor accepts obeys the laws exactly when
it is not one. -/
theorem laws_iff {numLeaves : ℕ} (h : Accepted numLeaves) : Laws numLeaves ↔ numLeaves ≠ 1 := by
  constructor
  · rintro hlaws rfl
    exact not_laws_one hlaws
  · intro hne
    obtain ⟨k, rfl, hk⟩ := accepted_eq_two_pow h
    apply laws_two_pow (by omega)
    rintro rfl
    exact hne rfl

/-- Four leaves. -/
theorem laws_four : Laws 4 := (laws_iff ⟨by decide, by decide⟩).mpr (by decide)

/-- One leaf is accepted, and touching it throws. -/
theorem single_leaf_throws : Accepted 1 ∧ ¬ Laws 1 ∧ Touch ⟨0, 0⟩ [] none :=
  ⟨⟨by decide, by decide⟩, not_laws_one, touch_single_leaf 0⟩

end Gem5.Mem.ReplacementPolicy
