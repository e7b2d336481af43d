/-
# The dependency graph of the instruction queue

Embedding of `cpu/o3/dep_graph.hh`.  Every physical register has a chain of the instructions that
wait for its value, the newest first, and a head that names the instruction that will produce it.
-/
import Gem5.Runs
import Gem5.Types

namespace Gem5

open Runs

/-- `DependencyGraph`: the chains, their heads, and the count of allocated nodes. -/
structure DependencyGraph (regs : ℕ) where
  chain : Fin regs → List InstSeqNum
  inst : Fin regs → Option InstSeqNum
  memAllocCounter : ℕ

namespace DependencyGraph

variable {regs : ℕ}

/-- `DependencyGraph::resize` -/
def init : DependencyGraph regs := ⟨fun _ => [], fun _ => none, 0⟩

/-- `DependencyGraph::insert` -/
def insert (g : DependencyGraph regs) (idx : Fin regs) (new_inst : InstSeqNum) :
    DependencyGraph regs :=
  { g with
    chain := Function.update g.chain idx (new_inst :: g.chain idx)
    memAllocCounter := g.memAllocCounter + 1 }

/-- `DependencyGraph::setInst` -/
def setInst (g : DependencyGraph regs) (idx : Fin regs) (new_inst : InstSeqNum) :
    DependencyGraph regs :=
  { g with inst := Function.update g.inst idx (some new_inst) }

/-- `DependencyGraph::clearInst` -/
def clearInst (g : DependencyGraph regs) (idx : Fin regs) : DependencyGraph regs :=
  { g with inst := Function.update g.inst idx none }

/-- The walk of `DependencyGraph::remove` along a chain; `none` when it runs past the end. -/
def unlink (inst_to_remove : InstSeqNum) : List InstSeqNum → Option (List InstSeqNum)
  | [] => none
  | curr :: next => if curr = inst_to_remove then some next
      else (unlink inst_to_remove next).map (curr :: ·)

/-- `DependencyGraph::remove`; `none` is `assert(curr != NULL)`. -/
def remove (g : DependencyGraph regs) (idx : Fin regs) (inst_to_remove : InstSeqNum) :
    Option (DependencyGraph regs) :=
  if (g.chain idx).isEmpty then some g
  else (unlink inst_to_remove (g.chain idx)).map fun chain =>
    { g with
      chain := Function.update g.chain idx chain
      memAllocCounter := g.memAllocCounter - 1 }

/-- `DependencyGraph::pop` of a chain that is not empty. -/
def pop (g : DependencyGraph regs) (idx : Fin regs) : DependencyGraph regs :=
  { g with
    chain := Function.update g.chain idx (g.chain idx).tail
    memAllocCounter := g.memAllocCounter - 1 }

/-! ## The nodes of the chains -/

variable {g g' : DependencyGraph regs} {idx : Fin regs} {x : InstSeqNum}

@[simp] theorem pop_chain_self : (g.pop idx).chain idx = (g.chain idx).tail :=
  Function.update_self ..

@[simp] theorem insert_chain_self : (g.insert idx x).chain idx = x :: g.chain idx :=
  Function.update_self ..

theorem unlink_eq (x : InstSeqNum) (l : List InstSeqNum) :
    unlink x l = if x ∈ l then some (l.erase x) else none := by
  induction l with
  | nil => rfl
  | cons y l ih =>
    rw [unlink, ih]
    by_cases hy : y = x
    · rw [if_pos hy, if_pos (hy ▸ List.mem_cons_self), hy, List.erase_cons_head]
    · rw [if_neg hy, List.erase_cons_tail (by simpa using hy)]
      by_cases hx : x ∈ l
      · rw [if_pos hx, if_pos (List.mem_cons_of_mem y hx)]
        rfl
      · rw [if_neg hx, if_neg (by simpa [hx] using Ne.symm hy)]
        rfl

/-- `memAllocCounter` counts the nodes of the chains. -/
def Counted (g : DependencyGraph regs) : Prop :=
  g.memAllocCounter = ∑ idx, (g.chain idx).length

theorem counted_init : (init : DependencyGraph regs).Counted := by
  simp [Counted, init]

/-- A sum over the chains, when one chain is replaced. -/
theorem sum_update (f : List InstSeqNum → ℕ) (chain : Fin regs → List InstSeqNum) (idx : Fin regs)
    (l : List InstSeqNum) : (∑ i, f (Function.update chain idx l i)) + f (chain idx) =
      (∑ i, f (chain i)) + f l := by
  have hrest : ∑ i ∈ Finset.univ.erase idx, f (Function.update chain idx l i) =
      ∑ i ∈ Finset.univ.erase idx, f (chain i) :=
    Finset.sum_congr rfl fun i hi => by rw [Function.update_of_ne (Finset.ne_of_mem_erase hi)]
  rw [← Finset.add_sum_erase _ _ (Finset.mem_univ idx),
    ← Finset.add_sum_erase _ (fun i => f (chain i)) (Finset.mem_univ idx), hrest,
    Function.update_self]
  omega

theorem Counted.insert (h : g.Counted) : (g.insert idx x).Counted := by
  have hsum := sum_update List.length g.chain idx (x :: g.chain idx)
  rw [List.length_cons] at hsum
  unfold Counted at h ⊢
  simp only [DependencyGraph.insert]
  omega

theorem Counted.pop (h : g.Counted) (hne : g.chain idx ≠ []) : (g.pop idx).Counted := by
  have hsum := sum_update List.length g.chain idx (g.chain idx).tail
  have hpos := List.length_pos_iff.mpr hne
  rw [List.length_tail] at hsum
  unfold Counted at h ⊢
  simp only [DependencyGraph.pop]
  omega

theorem remove_of_mem (hx : x ∈ g.chain idx) : g.remove idx x = some
    { g with
      chain := Function.update g.chain idx ((g.chain idx).erase x)
      memAllocCounter := g.memAllocCounter - 1 } := by
  rw [remove, unlink_eq, if_neg, if_pos hx, Option.map_some]
  rw [List.isEmpty_iff]
  exact List.ne_nil_of_mem hx

theorem remove_of_nil (hnil : g.chain idx = []) : g.remove idx x = some g := by
  rw [remove, if_pos (by rw [hnil]; rfl)]

theorem remove_eq_some (hg : g.remove idx x = some g') : g' = g ∨ x ∈ g.chain idx ∧
    g' = { g with
      chain := Function.update g.chain idx ((g.chain idx).erase x)
      memAllocCounter := g.memAllocCounter - 1 } := by
  rw [remove, unlink_eq] at hg
  split at hg
  · exact .inl (Option.some.inj hg).symm
  · by_cases hx : x ∈ g.chain idx
    · rw [if_pos hx, Option.map_some, Option.some.injEq] at hg
      exact .inr ⟨hx, hg.symm⟩
    · rw [if_neg hx] at hg
      cases hg

theorem Counted.remove (h : g.Counted) (hg : g.remove idx x = some g') : g'.Counted := by
  rcases remove_eq_some hg with rfl | ⟨hx, rfl⟩
  · exact h
  · have hsum := sum_update List.length g.chain idx ((g.chain idx).erase x)
    have hpos := List.length_pos_of_mem hx
    rw [List.length_erase_of_mem hx] at hsum
    unfold Counted at h ⊢
    simp only
    omega

end DependencyGraph

end Gem5
