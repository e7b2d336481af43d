/-
# The ready lists of the instruction queue

Embedding of the part of `cpu/o3/inst_queue.cc` that orders ready instructions.  Every operation
class has a priority queue of ready instructions, and `listOrder` lists the classes that have any,
the class with the oldest instruction first; `readyIt` remembers where each class stands in it.

`Ordered` says what the lists agree on.  Adding an instruction keeps it, and so does taking the top
of a class in the middle of a traversal, which moves the class down the list being traversed.
-/
import Gem5.Runs
import Gem5.Types

namespace Gem5

open Runs

/-- `OpClass`: the kind of function unit that an instruction needs. -/
abbrev OpClass := ℕ

/-- `No_OpClass`: no function unit. -/
def No_OpClass : OpClass := 0

/-- `ListOrderEntry`, with the identity of its list node. -/
structure ListOrderEntry where
  node : ℕ
  queueType : OpClass
  oldestInst : InstSeqNum
  deriving DecidableEq, Repr

/-- `readyInsts`, `listOrder`, `readyIt` and `queueOnList`.  A priority queue is the list of its
instructions, the top first; `nextNode` numbers the nodes of `listOrder`. -/
structure ReadyLists where
  readyInsts : OpClass → List InstSeqNum
  listOrder : List ListOrderEntry
  readyIt : OpClass → Option ℕ
  queueOnList : OpClass → Bool
  nextNode : ℕ

namespace ReadyLists

/-- The assertions, and the undefined accesses. -/
inductive Fault where
  /-- `assert(!readyInsts[op_class].empty())`, or the top of an empty queue -/
  | emptyReadyQueue
  /-- an iterator that does not point to an entry was used -/
  | badIterator
  deriving DecidableEq, Repr

/-- `InstructionQueue::resetState` -/
def init : ReadyLists := ⟨fun _ => [], [], fun _ => none, fun _ => false, 0⟩

/-- `readyInsts[op_class].top()` -/
def top (q : ReadyLists) (op_class : OpClass) : Except Fault InstSeqNum :=
  orFail .emptyReadyQueue (q.readyInsts op_class).head?

/-- `readyInsts[op_class].push(inst)` -/
def push (q : ReadyLists) (op_class : OpClass) (inst : InstSeqNum) : ReadyLists :=
  let ready := (q.readyInsts op_class).orderedInsert (· ≤ ·) inst
  { q with readyInsts := Function.update q.readyInsts op_class ready }

/-- `readyInsts[op_class].pop()` -/
def pop (q : ReadyLists) (op_class : OpClass) : ReadyLists :=
  { q with readyInsts := Function.update q.readyInsts op_class (q.readyInsts op_class).tail }

/-- `InstructionQueue::addToOrderList` -/
def addToOrderList (q : ReadyLists) (op_class : OpClass) : Except Fault ReadyLists := do
  let oldestInst ← q.top op_class
  let queue_entry : ListOrderEntry := ⟨q.nextNode, op_class, oldestInst⟩
  return { q with
    listOrder := q.listOrder.takeWhile (·.oldestInst ≤ oldestInst) ++
      queue_entry :: q.listOrder.dropWhile (·.oldestInst ≤ oldestInst)
    readyIt := Function.update q.readyIt op_class (some q.nextNode)
    queueOnList := Function.update q.queueOnList op_class true
    nextNode := q.nextNode + 1 }

/-- `listOrder.erase` of the node of an iterator. -/
def erase (q : ReadyLists) (node : ℕ) : ReadyLists :=
  { q with listOrder := q.listOrder.filter (·.node ≠ node) }

/-- What `addIfReady` and `addReadyMemInst` do with an instruction that may issue: the list is
reordered when the class is not on it or has an older instruction than last time. -/
def add (q : ReadyLists) (op_class : OpClass) (inst : InstSeqNum) : Except Fault ReadyLists := do
  let q := q.push op_class inst
  if q.queueOnList op_class then
    let it ← orFail .badIterator (q.readyIt op_class)
    let entry ← orFail .badIterator (q.listOrder.find? (·.node = it))
    let oldest ← q.top op_class
    if oldest < entry.oldestInst then (q.erase it).addToOrderList op_class else return q
  else q.addToOrderList op_class

/-- `InstructionQueue::moveToYoungerInst`; the iterator is a position in `listOrder`. -/
def moveToYoungerInst (q : ReadyLists) (list_order_it : ℕ) (op_class : OpClass) :
    Except Fault ReadyLists := do
  let oldestInst ← q.top op_class
  let queue_entry : ListOrderEntry := ⟨q.nextNode, op_class, oldestInst⟩
  let next := q.listOrder.drop (list_order_it + 1)
  return { q with
    listOrder := q.listOrder.take (list_order_it + 1) ++
      (next.takeWhile (·.oldestInst < oldestInst) ++
        queue_entry :: next.dropWhile (·.oldestInst < oldestInst))
    readyIt := Function.update q.readyIt op_class (some q.nextNode)
    nextNode := q.nextNode + 1 }

/-- How `scheduleReadyInsts` takes the top of the class it visits: the class moves down the list, or
leaves it when nothing more is ready, and the entry visited is erased, `erase(order_it++)`. -/
def takeTop (q : ReadyLists) (order_it : ℕ) (op_class : OpClass) : Except Fault ReadyLists := do
  let q := q.pop op_class
  let q ← if (q.readyInsts op_class).isEmpty then
      pure { q with
        readyIt := Function.update q.readyIt op_class none
        queueOnList := Function.update q.queueOnList op_class false }
    else q.moveToYoungerInst order_it op_class
  return { q with listOrder := q.listOrder.eraseIdx order_it }

/-- What a traversal of `listOrder` from a position on can still visit: an upper bound. -/
def work (q : ReadyLists) (order_it : ℕ) : ℕ :=
  ((q.listOrder.drop order_it).map fun e => (q.readyInsts e.queueType).length + 1).sum

/-! ## The invariant -/

variable {cls : InstSeqNum → OpClass} {q q' : ReadyLists} {c : OpClass} {x : InstSeqNum}

/-- The list is sorted, its entries are exactly the classes that have something ready, each with the
top of its queue, and each where the class expects it. -/
structure Ordered (cls : InstSeqNum → OpClass) (q : ReadyLists) : Prop where
  sorted : q.listOrder.Pairwise (·.oldestInst < ·.oldestInst)
  nodes : q.listOrder.Pairwise (·.node ≠ ·.node)
  numbered : ∀ e ∈ q.listOrder, e.node < q.nextNode
  points : ∀ e ∈ q.listOrder, q.readyIt e.queueType = some e.node
  tops : ∀ e ∈ q.listOrder, (q.readyInsts e.queueType).head? = some e.oldestInst
  on_list : ∀ c, q.queueOnList c = true ↔ ∃ e ∈ q.listOrder, e.queueType = c
  idle : ∀ c, q.queueOnList c = false → q.readyInsts c = []
  queued : ∀ c, ∀ x ∈ q.readyInsts c, cls x = c
  queues : ∀ c, (q.readyInsts c).Pairwise (· ≤ ·)

theorem ordered_init : Ordered cls init where
  sorted := .nil
  nodes := .nil
  numbered := nofun
  points := nofun
  tops := nofun
  on_list _ := ⟨nofun, nofun⟩
  idle _ _ := rfl
  queued _ := nofun
  queues _ := .nil

namespace Ordered

/-- A class has one entry. -/
theorem entry_unique (h : Ordered cls q) {e f : ListOrderEntry} (he : e ∈ q.listOrder)
    (hf : f ∈ q.listOrder) (hc : e.queueType = f.queueType) : e = f := by
  have hpoint := h.points e he
  rw [hc, h.points f hf, Option.some.injEq] at hpoint
  exact List.inj_on_of_nodup_map (List.pairwise_map.mpr h.nodes) he hf hpoint.symm

theorem nodup_queueType (h : Ordered cls q) : (q.listOrder.map (·.queueType)).Nodup := by
  refine List.pairwise_map.mpr (h.nodes.imp_of_mem fun he hf hne hc => hne ?_)
  rw [h.entry_unique he hf hc]

/-- Each class stands on the list once if `queueOnList` is set for it, and else not at all. -/
theorem count_queueType (h : Ordered cls q) (c : OpClass) :
    (q.listOrder.map (·.queueType)).count c = if q.queueOnList c then 1 else 0 := by
  have hon : c ∈ q.listOrder.map (·.queueType) ↔ q.queueOnList c = true :=
    List.mem_map.trans (h.on_list c).symm
  by_cases hc : q.queueOnList c = true
  · rw [if_pos hc]
    exact List.count_eq_one_of_mem h.nodup_queueType (hon.mpr hc)
  · rw [if_neg hc]
    exact List.count_eq_zero.mpr fun hmem => hc (hon.mp hmem)

/-- The oldest instruction of another class is another instruction. -/
theorem oldestInst_ne (h : Ordered cls q) {e : ListOrderEntry} (he : e ∈ q.listOrder)
    (hx : cls x = c) (hc : e.queueType ≠ c) : e.oldestInst ≠ x := by
  rintro rfl
  refine hc (Eq.trans ?_ hx)
  exact (h.queued _ _ (List.mem_of_mem_head? (h.tops e he))).symm

end Ordered

/-- The class `c` goes to a new place on the list, for a new queue whose top fits there. -/
theorem Ordered.relist (h : Ordered cls q) {l : List InstSeqNum}
    (before after : List ListOrderEntry)
    (hsub : (before ++ after).Sublist q.listOrder)
    (hmem : ∀ e, e ∈ before ++ after ↔ e ∈ q.listOrder ∧ e.queueType ≠ c)
    (hbefore : ∀ e ∈ before, e.oldestInst ≤ x) (hafter : ∀ e ∈ after, x ≤ e.oldestInst)
    (hhead : l.head? = some x) (hqueued : ∀ y ∈ l, cls y = c) (hl : l.Pairwise (· ≤ ·))
    (hinsts : q'.readyInsts = Function.update q.readyInsts c l)
    (hlist : q'.listOrder = before ++ ⟨q.nextNode, c, x⟩ :: after)
    (hit : q'.readyIt = Function.update q.readyIt c (some q.nextNode))
    (hon : q'.queueOnList = Function.update q.queueOnList c true)
    (hnext : q'.nextNode = q.nextNode + 1) : Ordered cls q' := by
  have hx : cls x = c := hqueued x (List.mem_of_mem_head? hhead)
  have hlisted : ∀ e, e ∈ q'.listOrder ↔
      e = ⟨q.nextNode, c, x⟩ ∨ e ∈ q.listOrder ∧ e.queueType ≠ c := fun e => by
    rw [hlist, ← hmem, List.mem_append, List.mem_cons, List.mem_append]
    tauto
  have hne : ∀ e ∈ before ++ after, e.oldestInst ≠ x := fun e he =>
    h.oldestInst_ne ((hmem e).mp he).1 hx ((hmem e).mp he).2
  have hnode : ∀ e ∈ before ++ after, e.node ≠ q.nextNode := fun e he =>
    (h.numbered e ((hmem e).mp he).1).ne
  have hsorted := h.sorted.sublist hsub
  have hnodes := h.nodes.sublist hsub
  rw [List.pairwise_append] at hsorted hnodes
  constructor
  case sorted =>
    rw [hlist, List.pairwise_append, List.pairwise_cons]
    refine ⟨hsorted.1, ⟨fun e he => ?_, hsorted.2.1⟩, fun e he f hf => ?_⟩
    · exact lt_of_le_of_ne (hafter e he) (hne e (List.mem_append_right _ he)).symm
    · rcases List.mem_cons.mp hf with rfl | hf
      · exact lt_of_le_of_ne (hbefore e he) (hne e (List.mem_append_left _ he))
      · exact hsorted.2.2 e he f hf
  case nodes =>
    rw [hlist, List.pairwise_append, List.pairwise_cons]
    refine ⟨hnodes.1, ⟨fun e he => (hnode e (List.mem_append_right _ he)).symm, hnodes.2.1⟩,
      fun e he f hf => ?_⟩
    rcases List.mem_cons.mp hf with rfl | hf
    · exact hnode e (List.mem_append_left _ he)
    · exact hnodes.2.2 e he f hf
  case numbered =>
    intro e he
    rw [hnext]
    rcases (hlisted e).mp he with rfl | ⟨he, -⟩
    · exact Nat.lt_succ_self _
    · exact Nat.lt_succ_of_lt (h.numbered e he)
  case points =>
    intro e he
    rw [hit]
    rcases (hlisted e).mp he with rfl | ⟨he, hc⟩
    · exact Function.update_self ..
    · rw [Function.update_of_ne hc]
      exact h.points e he
  case tops =>
    intro e he
    rw [hinsts]
    rcases (hlisted e).mp he with rfl | ⟨he, hc⟩
    · rw [Function.update_self]
      exact hhead
    · rw [Function.update_of_ne hc]
      exact h.tops e he
  case on_list =>
    intro d
    rw [hon]
    rcases eq_or_ne d c with rfl | hd
    · rw [Function.update_self]
      exact ⟨fun _ => ⟨_, (hlisted _).mpr (.inl rfl), rfl⟩, fun _ => rfl⟩
    · rw [Function.update_of_ne hd, h.on_list]
      constructor
      · rintro ⟨e, he, rfl⟩
        exact ⟨e, (hlisted e).mpr (.inr ⟨he, hd⟩), rfl⟩
      · rintro ⟨e, he, rfl⟩
        rcases (hlisted e).mp he with rfl | ⟨he, -⟩
        · exact absurd rfl hd
        · exact ⟨e, he, rfl⟩
  case idle =>
    intro d hd
    rw [hon] at hd
    rcases eq_or_ne d c with rfl | hne
    · rw [Function.update_self] at hd
      cases hd
    · rw [Function.update_of_ne hne] at hd
      rw [hinsts, Function.update_of_ne hne]
      exact h.idle d hd
  case queued =>
    rw [hinsts]
    exact (Function.forall_update_iff _ fun d m => ∀ y ∈ m, cls y = d).mpr
      ⟨hqueued, fun d _ => h.queued d⟩
  case queues =>
    rw [hinsts]
    exact (Function.forall_update_iff _ fun _ => List.Pairwise (· ≤ ·)).mpr
      ⟨hl, fun d _ => h.queues d⟩

/-- The class `c` leaves the list, with nothing ready. -/
theorem Ordered.unlist (h : Ordered cls q) (hsub : q'.listOrder.Sublist q.listOrder)
    (hmem : ∀ e, e ∈ q'.listOrder ↔ e ∈ q.listOrder ∧ e.queueType ≠ c)
    (hinsts : q'.readyInsts = Function.update q.readyInsts c [])
    (hit : q'.readyIt = Function.update q.readyIt c none)
    (hon : q'.queueOnList = Function.update q.queueOnList c false)
    (hnext : q'.nextNode = q.nextNode) : Ordered cls q' := by
  constructor
  case sorted => exact h.sorted.sublist hsub
  case nodes => exact h.nodes.sublist hsub
  case numbered =>
    intro e he
    rw [hnext]
    exact h.numbered e ((hmem e).mp he).1
  case points =>
    intro e he
    rw [hit, Function.update_of_ne ((hmem e).mp he).2]
    exact h.points e ((hmem e).mp he).1
  case tops =>
    intro e he
    rw [hinsts, Function.update_of_ne ((hmem e).mp he).2]
    exact h.tops e ((hmem e).mp he).1
  case on_list =>
    intro d
    rw [hon]
    rcases eq_or_ne d c with rfl | hd
    · rw [Function.update_self]
      refine ⟨nofun, ?_⟩
      rintro ⟨e, he, rfl⟩
      exact absurd rfl ((hmem e).mp he).2
    · rw [Function.update_of_ne hd, h.on_list]
      constructor
      · rintro ⟨e, he, rfl⟩
        exact ⟨e, (hmem e).mpr ⟨he, hd⟩, rfl⟩
      · rintro ⟨e, he, rfl⟩
        exact ⟨e, ((hmem e).mp he).1, rfl⟩
  case idle =>
    intro d hd
    rw [hinsts]
    rcases eq_or_ne d c with rfl | hne
    · exact Function.update_self ..
    · rw [hon, Function.update_of_ne hne] at hd
      rw [Function.update_of_ne hne]
      exact h.idle d hd
  case queued =>
    rw [hinsts]
    exact (Function.forall_update_iff _ fun d m => ∀ y ∈ m, cls y = d).mpr
      ⟨nofun, fun d _ => h.queued d⟩
  case queues =>
    rw [hinsts]
    exact (Function.forall_update_iff _ fun _ => List.Pairwise (· ≤ ·)).mpr
      ⟨.nil, fun d _ => h.queues d⟩

/-! ## Adding an instruction -/

/-- What a test passes along a list only in the beginning, it fails after its first failure. -/
theorem not_of_mem_dropWhile {α : Type*} {R : α → α → Prop} {p : α → Bool} {l : List α}
    (h : l.Pairwise R) (hp : ∀ a b, R a b → p b = true → p a = true) :
    ∀ a ∈ l.dropWhile p, p a = false := by
  induction l with
  | nil => exact fun _ h => absurd h List.not_mem_nil
  | cons a l ih =>
    rw [List.pairwise_cons] at h
    rw [List.dropWhile_cons]
    cases ha : p a with
    | true => exact ih h.2
    | false =>
      intro b hb
      rcases List.mem_cons.mp hb with rfl | hb
      · exact ha
      · cases hpb : p b with
        | false => rfl
        | true => exact absurd (hp a b (h.1 b hb) hpb) (ha ▸ Bool.false_ne_true)

/-- The top of a queue after a push. -/
theorem head?_orderedInsert {l : List InstSeqNum} (x : InstSeqNum) :
    (l.orderedInsert (· ≤ ·) x).head? = some (l.head?.elim x (min x)) := by
  cases l with
  | nil => rfl
  | cons y l =>
    rw [List.orderedInsert_cons]
    split
    next hle => exact congrArg some (min_eq_left hle).symm
    next hle => exact congrArg some (min_eq_right (Nat.le_of_not_le hle)).symm

theorem top_eq (h : (q.readyInsts c).head? = some x) : q.top c = .ok x := by
  rw [top, h]
  rfl

theorem push_readyInsts : (q.push c x).readyInsts c =
    (q.readyInsts c).orderedInsert (· ≤ ·) x := Function.update_self ..

namespace Ordered

/-- The entry of a class is found where `readyIt` points. -/
theorem find_entry (h : Ordered cls q) {e : ListOrderEntry} (he : e ∈ q.listOrder) :
    q.listOrder.find? (·.node = e.node) = some e := by
  cases hf : q.listOrder.find? (·.node = e.node) with
  | none => exact absurd (decide_eq_true rfl) (List.find?_eq_none.mp hf e he)
  | some f =>
    have hnode : f.node = e.node := by simpa using List.find?_some hf
    rw [List.inj_on_of_nodup_map (List.pairwise_map.mpr h.nodes) (List.mem_of_find?_eq_some hf)
      he hnode]

/-- Erasing the entry of a class leaves the entries of the others. -/
theorem mem_erase (h : Ordered cls q) {e : ListOrderEntry} (he : e ∈ q.listOrder)
    (f : ListOrderEntry) : f ∈ q.listOrder.filter (·.node ≠ e.node) ↔
      f ∈ q.listOrder ∧ f.queueType ≠ e.queueType := by
  rw [List.mem_filter, decide_eq_true_iff]
  refine and_congr_right fun hf => not_congr ⟨fun hn => ?_, fun hc => ?_⟩
  · rw [List.inj_on_of_nodup_map (List.pairwise_map.mpr h.nodes) hf he hn]
  · rw [h.entry_unique hf he hc]

/-- A class on the list may get another queue with the same top. -/
theorem requeue (h : Ordered cls q) {e : ListOrderEntry} (he : e ∈ q.listOrder)
    {l : List InstSeqNum} (hhead : l.head? = some e.oldestInst)
    (hqueued : ∀ y ∈ l, cls y = e.queueType) (hl : l.Pairwise (· ≤ ·))
    (hinsts : q'.readyInsts = Function.update q.readyInsts e.queueType l)
    (hrest : q' = { q with readyInsts := q'.readyInsts }) : Ordered cls q' := by
  have htops : ∀ f ∈ q.listOrder, (q'.readyInsts f.queueType).head? = some f.oldestInst := by
    intro f hf
    rw [hinsts]
    rcases eq_or_ne f.queueType e.queueType with hc | hc
    · rw [h.entry_unique hf he hc, Function.update_self]
      exact hhead
    · rw [Function.update_of_ne hc]
      exact h.tops f hf
  rw [hrest]
  constructor
  case sorted => exact h.sorted
  case nodes => exact h.nodes
  case numbered => exact h.numbered
  case points => exact h.points
  case tops => exact htops
  case on_list => exact h.on_list
  case idle =>
    rw [hinsts]
    refine (Function.forall_update_iff _ fun d m => q.queueOnList d = false → m = []).mpr
      ⟨fun hd => ?_, fun d _ => h.idle d⟩
    exact absurd ((h.on_list _).mpr ⟨e, he, rfl⟩) (hd ▸ Bool.false_ne_true)
  case queued =>
    rw [hinsts]
    exact (Function.forall_update_iff _ fun d m => ∀ y ∈ m, cls y = d).mpr
      ⟨hqueued, fun d _ => h.queued d⟩
  case queues =>
    rw [hinsts]
    exact (Function.forall_update_iff _ fun _ => List.Pairwise (· ≤ ·)).mpr
      ⟨hl, fun d _ => h.queues d⟩

/-- `addToOrderList` puts a class that is not on the list in its place. -/
theorem addToOrderList (h : Ordered cls q) {l : List InstSeqNum} {lo : List ListOrderEntry}
    (hsub : lo.Sublist q.listOrder) (hmem : ∀ e, e ∈ lo ↔ e ∈ q.listOrder ∧ e.queueType ≠ c)
    (hhead : l.head? = some x) (hqueued : ∀ y ∈ l, cls y = c) (hl : l.Pairwise (· ≤ ·)) :
    ∃ q', ReadyLists.addToOrderList
        { q with readyInsts := Function.update q.readyInsts c l, listOrder := lo } c = .ok q' ∧
      Ordered cls q' ∧ q'.readyInsts = Function.update q.readyInsts c l := by
  have htop : (Function.update q.readyInsts c l c).head? = some x := by rwa [Function.update_self]
  refine ⟨_, bind_eq_ok.mpr ⟨x, top_eq htop, rfl⟩, ?_, rfl⟩
  refine h.relist (lo.takeWhile (·.oldestInst ≤ x)) (lo.dropWhile (·.oldestInst ≤ x)) ?_ ?_
    (fun e he => ?_) (fun e he => ?_)
    hhead hqueued hl rfl rfl rfl rfl rfl
  · rwa [List.takeWhile_append_dropWhile]
  · rwa [List.takeWhile_append_dropWhile]
  · simpa using List.mem_takeWhile_imp he
  · have hlt := not_of_mem_dropWhile (h.sorted.sublist hsub)
      (fun a b hab hb => decide_eq_true (hab.le.trans (of_decide_eq_true hb))) e he
    exact (Nat.lt_of_not_le (of_decide_eq_false hlt)).le

/-- **An instruction is added.**  The lists stay ordered, and the instruction waits in the queue of
its class. -/
theorem add (h : Ordered cls q) (hx : cls x = c) :
    ∃ q', q.add c x = .ok q' ∧ Ordered cls q' ∧ q'.readyInsts =
      Function.update q.readyInsts c ((q.readyInsts c).orderedInsert (· ≤ ·) x) := by
  have hhead := head?_orderedInsert (l := q.readyInsts c) x
  have hqueued : ∀ y ∈ (q.readyInsts c).orderedInsert (· ≤ ·) x, cls y = c := fun y hy => by
    rcases (List.mem_orderedInsert _).mp hy with rfl | hy
    · exact hx
    · exact h.queued c y hy
  have hsorted : ((q.readyInsts c).orderedInsert (· ≤ ·) x).Pairwise (· ≤ ·) :=
    (h.queues c).orderedInsert x _
  unfold ReadyLists.add
  cases hon : q.queueOnList c with
  | false =>
    have hmem : ∀ e, e ∈ q.listOrder ↔ e ∈ q.listOrder ∧ e.queueType ≠ c := fun e =>
      ⟨fun he => ⟨he, fun hc => absurd ((h.on_list c).mpr ⟨e, he, hc⟩)
        (hon ▸ Bool.false_ne_true)⟩, And.left⟩
    have hadd := h.addToOrderList (.refl _) hmem hhead hqueued hsorted
    simp only [push, hon, Bool.false_eq_true, if_false]
    exact hadd
  | true =>
    obtain ⟨e, he, rfl⟩ := (h.on_list c).mp hon
    rw [h.tops e he, Option.elim_some] at hhead
    have htop : (q.push e.queueType x).top e.queueType = .ok (min x e.oldestInst) :=
      top_eq (by rw [push_readyInsts, hhead])
    have hit : orFail Fault.badIterator ((q.push e.queueType x).readyIt e.queueType) =
        .ok e.node := orFail_eq_ok.mpr (h.points e he)
    have hfind : orFail Fault.badIterator
        ((q.push e.queueType x).listOrder.find? (·.node = e.node)) = .ok e :=
      orFail_eq_ok.mpr (h.find_entry he)
    have hpushed : (q.push e.queueType x).queueOnList e.queueType = true := hon
    simp only [hpushed, if_true]
    by_cases hlt : min x e.oldestInst < e.oldestInst
    · -- the class has an older instruction than its entry says
      obtain ⟨q', hq', hord⟩ := h.addToOrderList List.filter_sublist (h.mem_erase he) hhead
        hqueued hsorted
      refine ⟨q', bind_eq_ok.mpr ⟨_, hit, bind_eq_ok.mpr ⟨_, hfind,
        bind_eq_ok.mpr ⟨_, htop, ?_⟩⟩⟩, hord⟩
      rw [if_pos hlt]
      exact hq'
    · have hmin : min x e.oldestInst = e.oldestInst :=
        Nat.le_antisymm (min_le_right _ _) (Nat.le_of_not_lt hlt)
      refine ⟨_, bind_eq_ok.mpr ⟨_, hit, bind_eq_ok.mpr ⟨_, hfind,
        bind_eq_ok.mpr ⟨_, htop, if_neg hlt⟩⟩⟩, ?_, rfl⟩
      rw [hmin] at hhead
      exact h.requeue he hhead hqueued hsorted rfl rfl

end Ordered

/-! ## Taking the top of a class in the middle of a traversal -/

theorem exists_append_of_getElem? {α : Type*} {l : List α} {i : ℕ} {a : α} (h : l[i]? = some a) :
    ∃ before after, l = before ++ a :: after ∧ before.length = i := by
  obtain ⟨hi, rfl⟩ := List.getElem?_eq_some_iff.mp h
  refine ⟨l.take i, l.drop (i + 1), ?_, List.length_take_of_le hi.le⟩
  rw [List.getElem_cons_drop, List.take_append_drop]

theorem work_eq {before after : List ListOrderEntry} (h : q.listOrder = before ++ after) :
    q.work before.length =
      (after.map fun e => (q.readyInsts e.queueType).length + 1).sum := by
  rw [work, h, List.drop_left]

/-- Leaving an entry behind leaves less to visit. -/
theorem work_succ {i : ℕ} {e : ListOrderEntry} (h : q.listOrder[i]? = some e) :
    q.work (i + 1) < q.work i := by
  obtain ⟨hi, rfl⟩ := List.getElem?_eq_some_iff.mp h
  rw [work, work, ← List.getElem_cons_drop hi, List.map_cons, List.sum_cons]
  omega

namespace Ordered

/-- What follows an entry belongs to other classes. -/
theorem ne_of_append (h : Ordered cls q) {before after : List ListOrderEntry} {e : ListOrderEntry}
    (hl : q.listOrder = before ++ e :: after) :
    ∀ f, f ∈ before ++ after ↔ f ∈ q.listOrder ∧ f.queueType ≠ e.queueType := by
  have hnodup := h.nodup_queueType
  rw [hl, List.map_append, List.map_cons, List.nodup_middle, List.nodup_cons, ← List.map_append]
    at hnodup
  intro f
  rw [hl, List.mem_append, List.mem_append, List.mem_cons]
  constructor
  · intro hf
    refine ⟨hf.imp_right .inr, fun hc => hnodup.1 ?_⟩
    rw [← hc]
    exact List.mem_map_of_mem (List.mem_append.mpr hf)
  · rintro ⟨hf | rfl | hf, hc⟩
    · exact .inl hf
    · exact absurd rfl hc
    · exact .inr hf

/-- The entries of the other classes see nothing of what happens to a queue. -/
theorem sum_work (h : Ordered cls q) {before after : List ListOrderEntry} {e : ListOrderEntry}
    (hl : q.listOrder = before ++ e :: after) (l : List InstSeqNum) :
    (after.map fun f => (Function.update q.readyInsts e.queueType l f.queueType).length + 1).sum =
      (after.map fun f => (q.readyInsts f.queueType).length + 1).sum := by
  refine congrArg List.sum (List.map_congr_left fun f hf => ?_)
  rw [Function.update_of_ne ((h.ne_of_append hl f).mp (List.mem_append_right _ hf)).2]

/-- **The top of the class at a position is taken.**  The lists stay ordered, the class has one
instruction less, and less is left to visit from the same position on. -/
theorem takeTop (h : Ordered cls q) {i : ℕ} {e : ListOrderEntry} (he : q.listOrder[i]? = some e) :
    ∃ q', q.takeTop i e.queueType = .ok q' ∧ Ordered cls q' ∧ q'.readyInsts =
        Function.update q.readyInsts e.queueType (q.readyInsts e.queueType).tail ∧
      q'.work i < q.work i := by
  obtain ⟨before, after, hl, rfl⟩ := exists_append_of_getElem? he
  have hmem : e ∈ q.listOrder := hl ▸ List.mem_append_right _ List.mem_cons_self
  have hsub : (before ++ after).Sublist q.listOrder := by
    rw [hl]
    exact List.Sublist.append_left (List.sublist_cons_self e after) before
  have hwork : q.work before.length = (q.readyInsts e.queueType).length + 1 +
      (after.map fun f => (q.readyInsts f.queueType).length + 1).sum := by
    rw [work_eq hl, List.map_cons, List.sum_cons]
  obtain ⟨l, hqueue⟩ := List.head?_eq_some_iff.mp (h.tops e hmem)
  unfold ReadyLists.takeTop
  cases l with
  | nil =>
    -- nothing more is ready: the class leaves the list
    have hlist : q.listOrder.eraseIdx before.length = before ++ after := by
      rw [hl, List.eraseIdx_append_of_length_le le_rfl, Nat.sub_self, List.eraseIdx_cons_zero]
    simp only [pop, hqueue, List.tail_cons, Function.update_self, List.isEmpty_nil, if_true]
    refine ⟨_, rfl, ?_, rfl, ?_⟩
    · refine h.unlist ?_ (fun f => ?_) rfl rfl rfl rfl
      · exact hlist ▸ hsub
      · exact hlist ▸ h.ne_of_append hl f
    · rw [work_eq hlist, hwork, h.sum_work hl]
      omega
  | cons x l =>
    -- the class moves down to where its next instruction belongs
    have htake : q.listOrder.take (before.length + 1) = before ++ [e] := by
      rw [hl, List.take_length_add_append]
      rfl
    have hdrop : q.listOrder.drop (before.length + 1) = after := by
      rw [hl, List.drop_length_add_append]
      rfl
    let moved : List ListOrderEntry := after.takeWhile (·.oldestInst < x) ++
      ⟨q.nextNode, e.queueType, x⟩ :: after.dropWhile (·.oldestInst < x)
    have hlist : (q.listOrder.take (before.length + 1) ++
        ((q.listOrder.drop (before.length + 1)).takeWhile (·.oldestInst < x) ++
          ⟨q.nextNode, e.queueType, x⟩ ::
            (q.listOrder.drop (before.length + 1)).dropWhile (·.oldestInst < x))).eraseIdx
        before.length = before ++ moved := by
      rw [htake, hdrop, List.append_assoc, List.eraseIdx_append_of_length_le le_rfl,
        Nat.sub_self, List.singleton_append, List.eraseIdx_cons_zero]
    have hqueues := h.queues e.queueType
    rw [hqueue, List.pairwise_cons] at hqueues
    have hqueued : ∀ y ∈ x :: l, cls y = e.queueType := fun y hy =>
      h.queued _ y (hqueue ▸ List.mem_cons_of_mem _ hy)
    have hle : e.oldestInst ≤ x := hqueues.1 x List.mem_cons_self
    have hsorted := h.sorted
    rw [hl, List.pairwise_append, List.pairwise_cons] at hsorted
    have htop : (q.pop e.queueType).top e.queueType = .ok x :=
      top_eq (by simp only [pop, hqueue, List.tail_cons, Function.update_self, List.head?_cons])
    have hne : ((q.pop e.queueType).readyInsts e.queueType).isEmpty = false := by
      simp only [pop, hqueue, List.tail_cons, Function.update_self, List.isEmpty_cons]
    simp only [hne, Bool.false_eq_true, if_false]
    have htail : (q.readyInsts e.queueType).tail = x :: l := by rw [hqueue, List.tail_cons]
    have hqueue' : (Function.update q.readyInsts e.queueType (q.readyInsts e.queueType).tail)
        e.queueType = x :: l := by rw [Function.update_self, htail]
    have hsplit : (before ++ after.takeWhile (·.oldestInst < x)) ++
        after.dropWhile (·.oldestInst < x) = before ++ after := by
      rw [List.append_assoc, List.takeWhile_append_dropWhile]
    refine ⟨_, bind_eq_ok.mpr ⟨_, bind_eq_ok.mpr ⟨x, htop, rfl⟩, rfl⟩, ?_, rfl, ?_⟩
    · refine h.relist (before ++ after.takeWhile (·.oldestInst < x))
        (after.dropWhile (·.oldestInst < x)) (hsplit ▸ hsub)
        (hsplit ▸ h.ne_of_append hl) (fun f hf => ?_) (fun f hf => ?_) rfl hqueued hqueues.2
        (by rw [← htail]; rfl) ?_ rfl ?_ rfl
      · rcases List.mem_append.mp hf with hf | hf
        · exact (hsorted.2.2 f hf e List.mem_cons_self).le.trans hle
        · have hlt : f.oldestInst < x := by simpa using List.mem_takeWhile_imp hf
          exact hlt.le
      · have hlt := not_of_mem_dropWhile hsorted.2.1.2
          (fun a b hab hb => decide_eq_true (hab.trans (of_decide_eq_true hb))) f hf
        exact Nat.le_of_not_lt (of_decide_eq_false hlt)
      · exact hlist.trans (List.append_assoc ..).symm
      · exact (Function.update_eq_self_iff.mpr ((h.on_list _).mpr ⟨e, hmem, rfl⟩).symm).symm
    · have hafter := h.sum_work hl (x :: l)
      have hmoved : ∀ g : ListOrderEntry → ℕ,
          (moved.map g).sum = g ⟨q.nextNode, e.queueType, x⟩ + (after.map g).sum := fun g => by
        have hafter : (after.map g).sum = ((after.takeWhile (·.oldestInst < x) ++
            after.dropWhile (·.oldestInst < x)).map g).sum := by
          rw [List.takeWhile_append_dropWhile]
        rw [hafter, List.map_append, List.sum_append, List.map_append, List.sum_append,
          List.map_cons, List.sum_cons]
        omega
      rw [work_eq hlist, hwork, hmoved]
      change (Function.update q.readyInsts e.queueType (q.readyInsts e.queueType).tail
        e.queueType).length + 1 + (after.map fun f => (Function.update q.readyInsts e.queueType
          (q.readyInsts e.queueType).tail f.queueType).length + 1).sum < _
      rw [hqueue', hqueue, List.tail_cons, hafter, List.length_cons, List.length_cons,
        List.length_cons]
      omega

end Ordered

end ReadyLists

end Gem5
