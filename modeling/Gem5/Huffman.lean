/-
# The Huffman encoder

Embedding of `mem/cache/compressors/encoders/huffman.cc`.  The priority queue is a multiset of
nodes; its top is any node of least frequency, so the tree is a relation.  `generateCodes` walks the
tree with the code of the node in hand and fills the two maps, and the map from codes back to values
is keyed by the number of the code alone.

The codes are prefix-free for every tree.  They can be decoded exactly when no two leaves of the
tree differ only in how many left turns their paths begin with.
-/
import Gem5.BitString

namespace Gem5.Compression

/-! ## The encoder -/

/-- `Node` -/
inductive Node where
  | leaf (value frequency : ℕ)
  | inner (left right : Node)
  deriving DecidableEq, Repr

/-- `getFrequency()`, a 64-bit sum. -/
def Node.getFrequency : Node → ℕ
  | .leaf _ frequency => frequency
  | .inner left right => (left.getFrequency + right.getFrequency) % 2 ^ 64

/-- `Code` -/
structure Code where
  code : ℕ
  length : ℕ
  deriving DecidableEq, Repr

/-- `valueToCode` and `codeToValue` -/
structure CodeMaps where
  valueToCode : ℕ → Option Code := fun _ => none
  codeToValue : ℕ → Option ℕ := fun _ => none

/-- `sample(value, frequency)` -/
def sample (trees : Multiset Node) (value frequency : ℕ) : Multiset Node :=
  if frequency ≠ 0 then .leaf value frequency ::ₘ trees else trees

/-- The queue after a list of samples. -/
def sampleAll (samples : List (ℕ × ℕ)) : Multiset Node :=
  samples.foldl (fun trees s => sample trees s.1 s.2) 0

/-- `buildTree()`: the two nodes at the top of the queue, of least frequency, are merged until one
node is left. -/
inductive BuildTree : Multiset Node → Node → Prop
  | root (node : Node) : BuildTree {node} node
  | merge {left right root : Node} {trees : Multiset Node}
      (hleft : ∀ n ∈ right ::ₘ trees, left.getFrequency ≤ n.getFrequency)
      (hright : ∀ n ∈ trees, right.getFrequency ≤ n.getFrequency)
      (h : BuildTree (.inner left right ::ₘ trees) root) :
      BuildTree (left ::ₘ right ::ₘ trees) root

/-- The code of a subtree: one bit more. -/
def Code.extend (c : Code) (bit : Bool) : Code :=
  { code := (2 * c.code + bit.toNat) % 2 ^ 64, length := c.length + 1 }

/-- A leaf of the tree enters both maps. -/
def CodeMaps.insert (m : CodeMaps) (value : ℕ) (c : Code) : CodeMaps :=
  { valueToCode := Function.update m.valueToCode value (some c)
    codeToValue := Function.update m.codeToValue c.code (some value) }

/-- `generateCodes(node, current_code)` -/
def generateCodes (maxCodeLength : ℕ) : Node → Code → CodeMaps → CodeMaps
  | .leaf value _, currentCode, m =>
      if currentCode.length > maxCodeLength then m else m.insert value currentCode
  | .inner left right, currentCode, m =>
      if currentCode.length > maxCodeLength then m
      else generateCodes maxCodeLength left (currentCode.extend false)
        (generateCodes maxCodeLength right (currentCode.extend true) m)

/-- `generateCodeMaps()`, with the tree that `buildTree` returns. -/
def generateCodeMaps (maxCodeLength : ℕ) (root : Node) : CodeMaps :=
  generateCodes maxCodeLength root { code := 0, length := 0 } {}

/-- `encode(val)` -/
def CodeMaps.encode (m : CodeMaps) (val : ℕ) : Code :=
  (m.valueToCode val).getD { code := 0, length := 65 }

/-- `decode(code)`, which asserts that there is an entry. -/
def CodeMaps.decode (m : CodeMaps) (code : ℕ) : Option ℕ := m.codeToValue code

/-- The bits of a code. -/
def Code.bits (c : Code) : List Bool := BitString.ofValue c.length c.code

/-! ## The leaves of a tree -/

/-- The paths to the leaves, in the order of the walk, with their values. -/
def Node.leaves : Node → List (List Bool × ℕ)
  | .leaf value _ => [([], value)]
  | .inner left right =>
      right.leaves.map (fun e => (true :: e.1, e.2)) ++ left.leaves.map fun e => (false :: e.1, e.2)

/-- The code of a path. -/
def codeOf (p : List Bool) : Code := { code := BitString.value p, length := p.length }

theorem codeOf_extend {p : List Bool} (hp : p.length < 64) (b : Bool) :
    (codeOf p).extend b = codeOf (p ++ [b]) := by
  have hlt := BitString.value_lt (p ++ [b])
  rw [BitString.value_append_singleton, List.length_append, List.length_singleton] at hlt
  have hle : 2 ^ (p.length + 1) ≤ 2 ^ 64 := Nat.pow_le_pow_right (by decide) (by omega)
  have hcode : (2 * BitString.value p + b.toNat) % 2 ^ 64 = 2 * BitString.value p + b.toNat :=
    Nat.mod_eq_of_lt (hlt.trans_le hle)
  unfold Code.extend codeOf
  rw [BitString.value_append_singleton, List.length_append, List.length_singleton, hcode]

/-- The bits of the code of a path are the path. -/
theorem bits_codeOf (p : List Bool) : (codeOf p).bits = p := BitString.ofValue_value p

/-- The leaves below a node at path `p`. -/
def emittedAt (maxCodeLength : ℕ) (p : List Bool) (node : Node) : List (ℕ × Code) :=
  (node.leaves.filter fun e => decide ((p ++ e.1).length ≤ maxCodeLength)).map fun e =>
    (e.2, codeOf (p ++ e.1))

theorem emittedAt_inner (maxCodeLength : ℕ) (p : List Bool) (left right : Node) :
    emittedAt maxCodeLength p (.inner left right) =
      emittedAt maxCodeLength (p ++ [true]) right ++ emittedAt maxCodeLength (p ++ [false]) left := by
  unfold emittedAt
  rw [Node.leaves, List.filter_append, List.map_append, List.filter_map, List.filter_map,
    List.map_map, List.map_map]
  simp only [Function.comp_def, List.append_assoc, List.singleton_append]

variable {maxCodeLength : ℕ} {root : Node} {trees : Multiset Node}

theorem emittedAt_of_lt {p : List Bool} (h : maxCodeLength < p.length) (node : Node) :
    emittedAt maxCodeLength p node = [] := by
  unfold emittedAt
  rw [List.map_eq_nil_iff, List.filter_eq_nil_iff]
  intro e _
  rw [decide_eq_true_eq, List.length_append]
  omega

/-- A list of entries goes into the maps. -/
def CodeMaps.insertAll (m : CodeMaps) (entries : List (ℕ × Code)) : CodeMaps :=
  entries.foldl (fun m e => m.insert e.1 e.2) m

/-- The walk enters the leaves that are not too deep, one after the other. -/
theorem generateCodes_eq (hmax : maxCodeLength ≤ 64) (node : Node) :
    ∀ (p : List Bool) (c : Code) (m : CodeMaps),
      (p.length ≤ maxCodeLength → c = codeOf p) → c.length = p.length →
      generateCodes maxCodeLength node c m = m.insertAll (emittedAt maxCodeLength p node) := by
  induction node with
  | leaf value frequency =>
    intro p c m hc hlen
    unfold generateCodes
    by_cases h : c.length > maxCodeLength
    · rw [if_pos h, emittedAt_of_lt (by omega)]
      rfl
    · have hp : p.length ≤ maxCodeLength := by omega
      rw [if_neg h, hc hp]
      simp [emittedAt, Node.leaves, hp, CodeMaps.insertAll]
  | inner left right ihl ihr =>
    intro p c m hc hlen
    unfold generateCodes
    by_cases h : c.length > maxCodeLength
    · rw [if_pos h, emittedAt_of_lt (by omega)]
      rfl
    · have hp : p.length ≤ maxCodeLength := by omega
      -- a child that is too deep is dropped, so that its code does not matter
      have hchild : ∀ b, (p ++ [b]).length ≤ maxCodeLength → c.extend b = codeOf (p ++ [b]) := by
        intro b hb
        rw [List.length_append, List.length_singleton] at hb
        rw [hc hp]
        exact codeOf_extend (by omega) b
      have hlength : ∀ b, (c.extend b).length = (p ++ [b]).length := by
        intro b
        rw [List.length_append, List.length_singleton, ← hlen]
        rfl
      rw [if_neg h, ihr _ _ _ (hchild true) (hlength true),
        ihl _ _ _ (hchild false) (hlength false), emittedAt_inner]
      unfold CodeMaps.insertAll
      rw [List.foldl_append]

theorem generateCodeMaps_eq (hmax : maxCodeLength ≤ 64) (root : Node) :
    generateCodeMaps maxCodeLength root =
      CodeMaps.insertAll {} (emittedAt maxCodeLength [] root) :=
  generateCodes_eq hmax root [] _ _ (fun _ => rfl) rfl

theorem mem_emittedAt_nil {e : ℕ × Code} :
    e ∈ emittedAt maxCodeLength [] root ↔
      ∃ p, (p, e.1) ∈ root.leaves ∧ p.length ≤ maxCodeLength ∧ e.2 = codeOf p := by
  unfold emittedAt
  simp only [List.mem_map, List.mem_filter, List.nil_append, decide_eq_true_eq]
  constructor
  · rintro ⟨⟨p, v⟩, ⟨hmem, hlen⟩, rfl⟩
    exact ⟨p, hmem, hlen, rfl⟩
  · rintro ⟨p, hmem, hlen, hcode⟩
    exact ⟨(p, e.1), ⟨hmem, hlen⟩, by rw [← hcode]⟩

/-! ## The maps after the walk -/

/-- With distinct values, the first map holds the entries. -/
theorem valueToCode_insertAll (entries : List (ℕ × Code)) :
    ∀ (m : CodeMaps), (entries.map Prod.fst).Nodup → ∀ v c,
      (m.insertAll entries).valueToCode v = some c ↔
        (v, c) ∈ entries ∨ v ∉ entries.map Prod.fst ∧ m.valueToCode v = some c := by
  induction entries with
  | nil =>
    intro m _ v c
    simp [CodeMaps.insertAll]
  | cons e entries ih =>
    intro m hnd v c
    obtain ⟨w, d⟩ := e
    rw [List.map_cons, List.nodup_cons] at hnd
    change ((m.insert w d).insertAll entries).valueToCode v = some c ↔ _
    rw [ih _ hnd.2, List.map_cons, List.mem_cons, List.mem_cons]
    by_cases hv : v = w
    · subst hv
      have hnot : ∀ x, (v, x) ∉ entries := fun x h => hnd.1 (List.mem_map.mpr ⟨(v, x), h, rfl⟩)
      simp [hnd.1, hnot, CodeMaps.insert, eq_comm]
    · simp [hv, CodeMaps.insert]

/-- The second map holds, for the code of an entry, the value of an entry with this code. -/
theorem codeToValue_insertAll (entries : List (ℕ × Code)) :
    ∀ (m : CodeMaps) (k : ℕ),
      (∀ e ∈ entries, e.2.code ≠ k) ∧ (m.insertAll entries).codeToValue k = m.codeToValue k ∨
        ∃ e ∈ entries, e.2.code = k ∧ (m.insertAll entries).codeToValue k = some e.1 := by
  induction entries with
  | nil =>
    intro m k
    exact .inl ⟨by simp, rfl⟩
  | cons e entries ih =>
    intro m k
    change _ ∧ ((m.insert e.1 e.2).insertAll entries).codeToValue k = _ ∨
      ∃ e' ∈ e :: entries, _ ∧ ((m.insert e.1 e.2).insertAll entries).codeToValue k = _
    rcases ih (m.insert e.1 e.2) k with ⟨hnot, hsame⟩ | ⟨e', he', hcode, hval⟩
    · by_cases hk : e.2.code = k
      · refine .inr ⟨e, List.mem_cons_self, hk, ?_⟩
        rw [hsame, ← hk]
        exact Function.update_self ..
      · refine .inl ⟨?_, ?_⟩
        · intro e' he'
          rcases List.mem_cons.mp he' with rfl | he'
          · exact hk
          · exact hnot e' he'
        · rw [hsame]
          exact Function.update_of_ne (Ne.symm hk) _ _
    · exact .inr ⟨e', List.mem_cons_of_mem _ he', hcode, hval⟩

/-! ## The tree -/

/-- There is a leaf at the end of a path. -/
def Node.HasLeaf (node : Node) (p : List Bool) : Prop := ∃ v, (p, v) ∈ node.leaves

/-- The values at the leaves. -/
def Node.values (node : Node) : Multiset ℕ := (node.leaves.map Prod.snd : List ℕ)

theorem mem_leaves_inner {left right : Node} {p : List Bool} {v : ℕ} :
    (p, v) ∈ (Node.inner left right).leaves ↔
      (∃ q, p = true :: q ∧ (q, v) ∈ right.leaves) ∨ ∃ q, p = false :: q ∧ (q, v) ∈ left.leaves := by
  simp only [Node.leaves, List.mem_append, List.mem_map, Prod.mk.injEq, Prod.exists]
  constructor
  · rintro (⟨q, w, h, rfl, rfl⟩ | ⟨q, w, h, rfl, rfl⟩)
    · exact .inl ⟨q, rfl, h⟩
    · exact .inr ⟨q, rfl, h⟩
  · rintro (⟨q, rfl, h⟩ | ⟨q, rfl, h⟩)
    · exact .inl ⟨q, v, h, rfl, rfl⟩
    · exact .inr ⟨q, v, h, rfl, rfl⟩

/-- No leaf is above another one. -/
theorem leaves_prefix_free (node : Node) :
    ∀ {p q : List Bool} {v w : ℕ}, (p, v) ∈ node.leaves → (q, w) ∈ node.leaves → p <+: q →
      p = q ∧ v = w := by
  induction node with
  | leaf value frequency =>
    intro p q v w hp hq _
    simp only [Node.leaves, List.mem_singleton, Prod.mk.injEq] at hp hq
    exact ⟨hp.1.trans hq.1.symm, hp.2.trans hq.2.symm⟩
  | inner left right ihl ihr =>
    intro p q v w hp hq hprefix
    rw [mem_leaves_inner] at hp hq
    rcases hp with ⟨p, rfl, hp⟩ | ⟨p, rfl, hp⟩
    · rcases hq with ⟨q, rfl, hq⟩ | ⟨q, rfl, hq⟩
      · obtain ⟨rfl, rfl⟩ := ihr hp hq (List.cons_prefix_cons.mp hprefix).2
        exact ⟨rfl, rfl⟩
      · exact absurd (List.cons_prefix_cons.mp hprefix).1 (by decide)
    · rcases hq with ⟨q, rfl, hq⟩ | ⟨q, rfl, hq⟩
      · exact absurd (List.cons_prefix_cons.mp hprefix).1 (by decide)
      · obtain ⟨rfl, rfl⟩ := ihl hp hq (List.cons_prefix_cons.mp hprefix).2
        exact ⟨rfl, rfl⟩

theorem values_inner (left right : Node) :
    (Node.inner left right).values = left.values + right.values := by
  have hleaves : (Node.inner left right).leaves.map Prod.snd =
      right.leaves.map Prod.snd ++ left.leaves.map Prod.snd := by
    rw [Node.leaves, List.map_append, List.map_map, List.map_map]
    rfl
  unfold Node.values
  rw [hleaves, ← Multiset.coe_add, add_comm]

/-- Building the tree keeps the values. -/
theorem buildTree_values (h : BuildTree trees root) :
    root.values = trees.bind Node.values := by
  induction h with
  | root node => rw [Multiset.singleton_bind]
  | merge _ _ _ ih =>
    rw [ih, Multiset.cons_bind, Multiset.cons_bind, Multiset.cons_bind, values_inner, add_assoc]

/-- The queue's top: a node of least frequency. -/
theorem exists_top (h : trees ≠ 0) :
    ∃ top rest, trees = top ::ₘ rest ∧ ∀ n ∈ rest, top.getFrequency ≤ n.getFrequency := by
  have hne : trees.toFinset.Nonempty := Multiset.toFinset_nonempty.mpr h
  obtain ⟨top, hmem, hmin⟩ := Finset.exists_min_image _ Node.getFrequency hne
  obtain ⟨rest, rfl⟩ := Multiset.exists_cons_of_mem (Multiset.mem_toFinset.mp hmem)
  refine ⟨top, rest, rfl, fun n hn => ?_⟩
  exact hmin n (Multiset.mem_toFinset.mpr (Multiset.mem_cons_of_mem hn))

/-- The tree is built from every queue that is not empty. -/
theorem exists_buildTree (n : ℕ) :
    ∀ trees : Multiset Node, trees.card = n + 1 → ∃ root, BuildTree trees root := by
  induction n with
  | zero =>
    intro trees hcard
    obtain ⟨node, rfl⟩ := Multiset.card_eq_one.mp hcard
    exact ⟨node, .root node⟩
  | succ n ih =>
    intro trees hcard
    have hne : trees ≠ 0 := Multiset.card_pos.mp (by omega)
    obtain ⟨left, rest, rfl, hleft⟩ := exists_top hne
    rw [Multiset.card_cons] at hcard
    have hne' : rest ≠ 0 := Multiset.card_pos.mp (by omega)
    obtain ⟨right, trees, rfl, hright⟩ := exists_top hne'
    rw [Multiset.card_cons] at hcard
    obtain ⟨root, hroot⟩ := ih (.inner left right ::ₘ trees) (by rw [Multiset.card_cons]; omega)
    exact ⟨root, .merge hleft hright hroot⟩

theorem buildTree_ne_zero (h : BuildTree trees root) :
    trees ≠ 0 := by
  cases h with
  | root => exact Multiset.singleton_ne_zero _
  | merge => exact Multiset.cons_ne_zero

/-! ## Samples -/

theorem sampleAll_append (samples : List (ℕ × ℕ)) :
    ∀ trees : Multiset Node, (∀ s ∈ samples, s.2 ≠ 0) →
      samples.foldl (fun trees s => sample trees s.1 s.2) trees =
        ((samples.map fun s => Node.leaf s.1 s.2 : List Node) : Multiset Node) + trees := by
  induction samples with
  | nil =>
    intro trees _
    simp
  | cons s samples ih =>
    intro trees hfreq
    have hs : s.2 ≠ 0 := hfreq s List.mem_cons_self
    rw [List.foldl_cons, ih _ fun t ht => hfreq t (List.mem_cons_of_mem _ ht)]
    unfold sample
    rw [if_pos hs, List.map_cons, ← Multiset.cons_coe, Multiset.add_cons, Multiset.cons_add]

/-- Values with non-zero frequencies all enter the queue, each as a leaf. -/
theorem sampleAll_eq {samples : List (ℕ × ℕ)} (hfreq : ∀ s ∈ samples, s.2 ≠ 0) :
    sampleAll samples = ((samples.map fun s => Node.leaf s.1 s.2 : List Node) : Multiset Node) := by
  unfold sampleAll
  rw [sampleAll_append samples 0 hfreq, add_zero]

/-- The values at the leaves of the tree are the samples' values. -/
theorem values_root {samples : List (ℕ × ℕ)} (hfreq : ∀ s ∈ samples, s.2 ≠ 0)
    (h : BuildTree (sampleAll samples) root) :
    root.values = ((samples.map Prod.fst : List ℕ) : Multiset ℕ) := by
  rw [buildTree_values h, sampleAll_eq hfreq]
  clear h hfreq
  induction samples with
  | nil => rfl
  | cons s samples ih =>
    rw [List.map_cons, ← Multiset.cons_coe, Multiset.cons_bind, ih, List.map_cons,
      ← Multiset.cons_coe, ← Multiset.singleton_add]
    rfl

/-! ## Decodable codes -/

/-- What the code maps promise. -/
structure Decodable (maxCodeLength : ℕ) (m : CodeMaps) : Prop where
  decode_encode : ∀ v c, m.valueToCode v = some c → m.decode (m.encode v).code = some v
  prefix_free : ∀ v w c d, m.valueToCode v = some c → m.valueToCode w = some d →
    c.bits <+: d.bits → v = w
  length_le : ∀ v c, m.valueToCode v = some c → c.length ≤ maxCodeLength

/-- The left spine's right subtrees are apart: no place is a leaf below two of them, unless the
deeper leaf is dropped. -/
def SpineApart (maxCodeLength : ℕ) (root : Node) : Prop :=
  ∀ (j k : ℕ) (s : List Bool), j < k → root.HasLeaf (List.replicate j false ++ true :: s) →
    root.HasLeaf (List.replicate k false ++ true :: s) → maxCodeLength < k + 1 + s.length

/-- Leaves with the same number are apart exactly when the subtrees are. -/
theorem spineApart_iff (maxCodeLength : ℕ) (root : Node) :
    SpineApart maxCodeLength root ↔
      ∀ p q, root.HasLeaf p → root.HasLeaf q → p.length ≤ maxCodeLength →
        q.length ≤ maxCodeLength → BitString.value p = BitString.value q → p = q := by
  constructor
  · intro h p q hp hq hplen hqlen hvalue
    have hstrip := (BitString.value_eq_iff p q).mp hvalue
    obtain ⟨j, hj⟩ := BitString.exists_replicate_append_strip p
    obtain ⟨k, hk⟩ := BitString.exists_replicate_append_strip q
    rw [← hstrip] at hk
    rcases Nat.lt_trichotomy j k with hlt | heq | hgt
    · rcases BitString.strip_eq_cons p with hnil | ⟨s, hs⟩
      · obtain ⟨v, hv⟩ := hp
        obtain ⟨w, hw⟩ := hq
        refine (leaves_prefix_free root hv hw ?_).1
        rw [hj, hk, hnil, List.append_nil, List.append_nil]
        exact (List.prefix_replicate_iff).mpr ⟨by simpa using hlt.le, by simp⟩
      · rw [hs] at hj hk
        have hdeep := h j k s hlt (hj ▸ hp) (hk ▸ hq)
        have hlen := congrArg List.length hk
        rw [List.length_append, List.length_replicate, List.length_cons] at hlen
        omega
    · rw [hj, hk, heq]
    · rcases BitString.strip_eq_cons p with hnil | ⟨s, hs⟩
      · obtain ⟨v, hv⟩ := hp
        obtain ⟨w, hw⟩ := hq
        refine (leaves_prefix_free root hw hv ?_).1.symm
        rw [hj, hk, hnil, List.append_nil, List.append_nil]
        exact (List.prefix_replicate_iff).mpr ⟨by simpa using hgt.le, by simp⟩
      · rw [hs] at hj hk
        have hdeep := h k j s hgt (hk ▸ hq) (hj ▸ hp)
        have hlen := congrArg List.length hj
        rw [List.length_append, List.length_replicate, List.length_cons] at hlen
        omega
  · intro h j k s hlt hj hk
    by_contra hdeep
    have hvalue : BitString.value (List.replicate j false ++ true :: s) =
        BitString.value (List.replicate k false ++ true :: s) := by
      rw [BitString.value_eq_iff, BitString.strip_replicate_append, BitString.strip_replicate_append]
    have heq := h _ _ hj hk (by simp; omega) (by simp; omega) hvalue
    have hlen := congrArg List.length heq
    simp only [List.length_append, List.length_replicate, List.length_cons] at hlen
    omega

/-- An entry of the first map is a leaf that is not too deep, with the code of its path. -/
theorem valueToCode_iff (hmax : maxCodeLength ≤ 64) (hnd : (root.leaves.map Prod.snd).Nodup) (v : ℕ)
    (c : Code) :
    (generateCodeMaps maxCodeLength root).valueToCode v = some c ↔
      ∃ p, (p, v) ∈ root.leaves ∧ p.length ≤ maxCodeLength ∧ c = codeOf p := by
  have hvalues : ((emittedAt maxCodeLength [] root).map Prod.fst).Nodup := by
    unfold emittedAt
    rw [List.map_map]
    exact hnd.sublist (List.filter_sublist.map _)
  rw [generateCodeMaps_eq hmax, valueToCode_insertAll _ _ hvalues, ← mem_emittedAt_nil (e := (v, c))]
  simp

/-- **Decoding.**  The second map gives every value back from its code exactly when no two codes
have the same number. -/
theorem decode_encode_iff (hmax : maxCodeLength ≤ 64) (hnd : (root.leaves.map Prod.snd).Nodup) :
    (∀ v c, (generateCodeMaps maxCodeLength root).valueToCode v = some c →
        (generateCodeMaps maxCodeLength root).decode
          ((generateCodeMaps maxCodeLength root).encode v).code = some v) ↔
      SpineApart maxCodeLength root := by
  rw [spineApart_iff]
  have hencode : ∀ v c, (generateCodeMaps maxCodeLength root).valueToCode v = some c →
      (generateCodeMaps maxCodeLength root).encode v = c := by
    intro v c h
    unfold CodeMaps.encode
    rw [h, Option.getD_some]
  constructor
  · intro h p q hp hq hplen hqlen hvalue
    obtain ⟨v, hv⟩ := hp
    obtain ⟨w, hw⟩ := hq
    have hv' := (valueToCode_iff hmax hnd v _).mpr ⟨p, hv, hplen, rfl⟩
    have hw' := (valueToCode_iff hmax hnd w _).mpr ⟨q, hw, hqlen, rfl⟩
    have hdv := h v _ hv'
    have hdw := h w _ hw'
    rw [hencode _ _ hv'] at hdv
    rw [hencode _ _ hw'] at hdw
    -- both codes are looked up under the same number
    have hcode : (codeOf p).code = (codeOf q).code := hvalue
    rw [hcode, hdw] at hdv
    have heq : w = v := Option.some.inj hdv
    subst heq
    have hpair := List.inj_on_of_nodup_map hnd hv hw rfl
    exact congrArg Prod.fst hpair
  · intro h v c hvc
    rw [hencode _ _ hvc]
    obtain ⟨p, hp, hplen, rfl⟩ := (valueToCode_iff hmax hnd v c).mp hvc
    unfold CodeMaps.decode
    rw [generateCodeMaps_eq hmax]
    rcases codeToValue_insertAll (emittedAt maxCodeLength [] root) {} (codeOf p).code with
      ⟨hnot, -⟩ | ⟨e, he, hcode, hval⟩
    · exact absurd rfl (hnot (v, codeOf p) (mem_emittedAt_nil.mpr ⟨p, hp, hplen, rfl⟩))
    · obtain ⟨q, hq, hqlen, hcode'⟩ := mem_emittedAt_nil.mp he
      rw [hcode'] at hcode
      have hqp := h q p ⟨_, hq⟩ ⟨_, hp⟩ hqlen hplen hcode
      subst hqp
      rw [hval, (leaves_prefix_free root hq hp (List.prefix_refl q)).2]

/-- The code maps keep their promises exactly when the subtrees of the left spine are apart. -/
theorem decodable_generateCodeMaps (hmax : maxCodeLength ≤ 64)
    (hnd : (root.leaves.map Prod.snd).Nodup) :
    Decodable maxCodeLength (generateCodeMaps maxCodeLength root) ↔
      SpineApart maxCodeLength root := by
  rw [← decode_encode_iff hmax hnd]
  constructor
  · intro h
    exact h.decode_encode
  · intro h
    refine ⟨h, ?_, ?_⟩
    · intro v w c d hv hw hprefix
      obtain ⟨p, hp, -, rfl⟩ := (valueToCode_iff hmax hnd v c).mp hv
      obtain ⟨q, hq, -, rfl⟩ := (valueToCode_iff hmax hnd w d).mp hw
      rw [bits_codeOf, bits_codeOf] at hprefix
      exact (leaves_prefix_free root hp hq hprefix).2
    · intro v c hv
      obtain ⟨p, -, hplen, rfl⟩ := (valueToCode_iff hmax hnd v c).mp hv
      exact hplen

/-- **Huffman codes.**  From any samples of distinct values with non-zero frequencies a tree is
built exactly when there is a sample.  Whichever tree the queue's ties lead to, its codes can be
decoded, are prefix-free and not too long exactly when the right subtrees of its left spine are
apart. -/
theorem huffman_codes_decodable_iff {maxCodeLength : ℕ} (hmax : maxCodeLength ≤ 64)
    {samples : List (ℕ × ℕ)} (hvalues : (samples.map Prod.fst).Nodup)
    (hfreq : ∀ s ∈ samples, s.2 ≠ 0) :
    ((∃ root, BuildTree (sampleAll samples) root) ↔ samples ≠ []) ∧
      ∀ root, BuildTree (sampleAll samples) root →
        (Decodable maxCodeLength (generateCodeMaps maxCodeLength root) ↔
          SpineApart maxCodeLength root) := by
  constructor
  · constructor
    · rintro ⟨root, hroot⟩ rfl
      exact buildTree_ne_zero hroot rfl
    · intro hne
      have hlen := List.length_pos_iff.mpr hne
      refine exists_buildTree (samples.length - 1) _ ?_
      rw [sampleAll_eq hfreq, Multiset.coe_card, List.length_map]
      omega
  · intro root hroot
    refine decodable_generateCodeMaps hmax ?_
    have hroot' := values_root hfreq hroot
    unfold Node.values at hroot'
    rw [← Multiset.coe_nodup, hroot', Multiset.coe_nodup]
    exact hvalues

/-- Three values of similar frequencies: their codes are `0`, `10` and `11`. -/
theorem huffman_codes_decodable_three :
    ∃ root, BuildTree (sampleAll [(10, 2), (11, 2), (12, 3)]) root ∧
      Decodable 64 (generateCodeMaps 64 root) := by
  have hsamples : sampleAll [(10, 2), (11, 2), (12, 3)] =
      .leaf 10 2 ::ₘ .leaf 11 2 ::ₘ {.leaf 12 3} := by decide
  have hroot : BuildTree (sampleAll [(10, 2), (11, 2), (12, 3)])
      (.inner (.leaf 12 3) (.inner (.leaf 10 2) (.leaf 11 2))) := by
    rw [hsamples]
    refine .merge (by decide) (by decide) ?_
    have hswap : Node.inner (.leaf 10 2) (.leaf 11 2) ::ₘ {Node.leaf 12 3} =
        Node.leaf 12 3 ::ₘ Node.inner (.leaf 10 2) (.leaf 11 2) ::ₘ 0 := by decide
    rw [hswap]
    exact .merge (by decide) (by decide) (.root _)
  refine ⟨_, hroot, ?_⟩
  rw [(huffman_codes_decodable_iff (by decide) (by decide) (by decide)).2 _ hroot]
  -- the left spine is one leaf, below which there is no right turn
  intro j k s hlt _ hk
  obtain ⟨k, rfl⟩ : ∃ i, k = i + 1 := ⟨k - 1, by omega⟩
  simp [Node.HasLeaf, Node.leaves, List.replicate_succ] at hk

/-- One value sampled three times and two values sampled once: the codes `1` and `01` have the same
number, and the first is decoded to the second's value. -/
theorem huffman_code_collision :
    ∃ root, BuildTree (sampleAll [(10, 1), (11, 1), (12, 3)]) root ∧
      (generateCodeMaps 64 root).encode 12 = { code := 1, length := 1 } ∧
      (generateCodeMaps 64 root).encode 11 = { code := 1, length := 2 } ∧
      (generateCodeMaps 64 root).decode ((generateCodeMaps 64 root).encode 12).code = some 11 := by
  have hsamples : sampleAll [(10, 1), (11, 1), (12, 3)] =
      .leaf 10 1 ::ₘ .leaf 11 1 ::ₘ {.leaf 12 3} := by decide
  refine ⟨.inner (.inner (.leaf 10 1) (.leaf 11 1)) (.leaf 12 3), ?_, by decide, by decide,
    by decide⟩
  rw [hsamples]
  exact .merge (by decide) (by decide) (.merge (by decide) (by decide) (.root _))

end Gem5.Compression
